import Ripple.App.BuildLedger

/-!
# Ripple.App.Replay

A replay reproduces the ledger it is made from.

* `replay_reproduces`: the result, for ledgers whose indexes are all different.
-/

namespace Ripple.App

open Protocol OrderedMap List
open Ripple.Ledger (Fault ApplyFlags tapRETRY)

variable {K : Kinds} {env : Env K}

variable {α β : Type} {flags : ApplyFlags} {retry : Bool} {txns : List (K.Txn)}
  {r : List (K.Txn) × Progress K} {failed : Finset Uint256} {l : Ledger K}
  {items : List (Uint256 × K.Txn × TxMeta K.Meta)} {closeResolution closeTime : Nat}
  {accum : OpenView K} {built : Ledger K} {correct : Bool} {parent : Ledger K} {b : Built K}

theorem bind_eq_ok {x : Except Fault α} {f : α → Except Fault β} {b : β} (h : x >>= f = .ok b) :
    ∃ a, x = .ok a ∧ f a = .ok b := by
  cases x with
  | error e => cases h
  | ok a => exact ⟨a, rfl, h⟩

/-! ## Applying -/

/-- The transactions are applied in this order, none of them with `tapRETRY`. -/
inductive Applies (env : Env K) : OpenView K → List (K.Txn) → OpenView K → Prop
  | nil (view) : Applies env view [] view
  | cons {view tx next txs last} : applyTransaction env view tx false tapNONE = .ok (.success, next) →
      Applies env next txs last → Applies env view (tx :: txs) last

variable {view : OpenView K} {txs : List (K.Txn)} {next : OpenView K} {tx : K.Txn}
  {last : OpenView K}

theorem Applies.snoc (h : Applies env view txs next)
    (hone : applyTransaction env next tx false tapNONE = .ok (.success, last)) :
    Applies env view (txs ++ [tx]) last := by
  induction h with
  | nil => exact .cons hone (.nil last)
  | cons hfirst _ ih => exact .cons hfirst (ih hone)

/-- A transaction that is applied with `tapRETRY` is applied without it, and with the same effect.
-/
def Env.RetryAgrees (env : Env K) : Prop :=
  ∀ view tx items record, env.attempt view tx (tapNONE ||| tapRETRY) = .applied items record →
    env.attempt view tx tapNONE = .applied items record

theorem applyTransaction_view {result : ApplyResult}
    (h : applyTransaction env view tx retry flags = .ok (result, next))
    (hresult : result ≠ .success) : next = view := by
  unfold applyTransaction at h
  dsimp only at h
  split at h
  · cases h
    rfl
  · split at h
    · cases h
      rfl
    · cases h
      rfl
  · obtain ⟨_, _, h⟩ := bind_eq_ok h
    cases h
    exact absurd rfl hresult

theorem applyTransaction_final (hagree : env.RetryAgrees)
    (h : applyTransaction env view tx retry tapNONE = .ok (.success, next)) :
    applyTransaction env view tx false tapNONE = .ok (.success, next) := by
  cases retry with
  | false => exact h
  | true =>
    unfold applyTransaction at h ⊢
    simp only [if_true] at h
    cases hatt : env.attempt view tx (tapNONE ||| tapRETRY) with
    | throws => simp [hatt] at h
    | refused ter =>
      simp only [hatt] at h
      split at h <;> cases h
    | applied items record =>
      simp only [hatt] at h
      simpa [hagree view tx items record hatt] using h

/-! ## A build from consensus -/

def Reached (env : Env K) (view : OpenView K) (a : Applied K) : Prop := Applies env view a.txs a.view

theorem tryAll_reached {pass : Nat} (hagree : env.RetryAgrees) :
    ∀ {p : Progress K} {r : List (K.Txn) × Progress K},
    Reached env view p.toApplied → tryAll env pass retry txns p = .ok r → Reached env view r.2.toApplied := by
  induction txns with
  | nil =>
    intro p r hp h
    cases h
    exact hp
  | cons tx txns ih =>
    intro p r hp h
    unfold tryAll at h
    split at h
    · exact ih hp h
    · obtain ⟨⟨result, next⟩, htx, h⟩ := bind_eq_ok h
      cases result with
      | success =>
        exact ih (p := ⟨⟨next, p.txs ++ [tx]⟩, p.failed, p.changes + 1⟩)
          (hp.snoc (applyTransaction_final hagree htx)) h
      | fail =>
        obtain rfl := applyTransaction_view htx (by decide)
        exact ih (p := { p with failed := insert (K.transactionID tx) p.failed }) hp h
      | retry =>
        obtain rfl := applyTransaction_view htx (by decide)
        obtain ⟨rest, hrest, h⟩ := bind_eq_ok h
        cases h
        have hall := ih (p := p) hp hrest
        exact hall

theorem passesFrom_reached (hagree : env.RetryAgrees) (pass : Nat) (retry : Bool)
    (txns : List (K.Txn)) (p : Progress K) (hp : Reached env view p.toApplied)
    (h : passesFrom env pass retry txns p = .ok r) : Reached env view r.2.toApplied := by
  unfold passesFrom at h
  split at h
  · obtain ⟨res, htry, h⟩ := bind_eq_ok h
    have hres := tryAll_reached hagree (p := { p with changes := 0 }) hp htry
    split at h
    · cases h
      exact hres
    · exact passesFrom_reached hagree _ _ _ _ hres h
  · cases h
    exact hp
termination_by LEDGER_TOTAL_PASSES - pass

/-! ## The records of a view -/

theorem applyTransaction_success
    (h : applyTransaction env view tx retry flags = .ok (.success, next)) :
    ∃ m : TxMeta K.Meta, m.index = view.txCount % 2 ^ 32 ∧ view.txs.find? (K.transactionID tx) = none ∧
      next.txs = view.txs.insert (K.transactionID tx) (tx, m) := by
  unfold applyTransaction at h
  dsimp only at h
  split at h
  · cases h
  · split at h <;> cases h
  · obtain ⟨view', hins, h⟩ := bind_eq_ok h
    unfold OpenView.rawTxInsert at hins
    split at hins
    · cases hins
    · rename_i hnone
      cases hins
      cases h
      exact ⟨_, rfl, hnone, rfl⟩

structure Recorded (view : OpenView K) (txs : List (K.Txn)) : Prop where
  count : view.txCount = txs.length
  found : ∀ i tx, txs[i]? = some tx →
    ∃ m, view.txs.find? (K.transactionID tx) = some (tx, m) ∧ m.index = i % 2 ^ 32
  listed : ∀ id tx m, view.txs.find? id = some (tx, m) →
    (K.transactionID tx) = id ∧ ∃ i, txs[i]? = some tx ∧ m.index = i % 2 ^ 32

theorem Recorded.fresh (base : Ledger K) : Recorded { base } [] where
  count := rfl
  found := by
    intro i tx h
    simp at h
  listed := by
    intro id tx m h
    cases h

theorem Recorded.step (h : Recorded view txs)
    (hone : applyTransaction env view tx retry flags = .ok (.success, next)) :
    Recorded next (txs ++ [tx]) := by
  obtain ⟨m, hindex, hnew, hnext⟩ := applyTransaction_success hone
  rw [h.count] at hindex
  constructor
  · rw [OpenView.txCount, hnext, OrderedMap.length_insert _ hnew, List.length_append]
    exact congrArg (· + 1) h.count
  · intro i other hi
    rw [hnext, OrderedMap.find?_insert]
    by_cases hlast : i < txs.length
    · rw [List.getElem?_append_left hlast] at hi
      obtain ⟨m', hfind, hm'⟩ := h.found i other hi
      have hne : (K.transactionID other) ≠ (K.transactionID tx) := by
        intro heq
        rw [heq, hnew] at hfind
        cases hfind
      exact ⟨m', by rw [if_neg hne, hfind], hm'⟩
    · rw [List.getElem?_append_right (not_lt.mp hlast), List.getElem?_singleton] at hi
      split at hi
      · rename_i hzero
        cases hi
        have hlen : i = txs.length := by omega
        exact ⟨m, if_pos rfl, hlen ▸ hindex⟩
      · cases hi
  · intro id other m' hfind
    rw [hnext, OrderedMap.find?_insert] at hfind
    split at hfind
    · rename_i hid
      cases hfind
      exact ⟨hid.symm, txs.length, by simp, hindex⟩
    · obtain ⟨hid, i, hi, hm'⟩ := h.listed id other m' hfind
      have hlt : i < txs.length := (List.getElem?_eq_some_iff.mp hi).1
      exact ⟨hid, i, by rw [List.getElem?_append_left hlt, hi], hm'⟩

theorem Applies.recorded (h : Applies env view txs last) :
    ∀ {before : List (K.Txn)}, Recorded view before → Recorded last (before ++ txs) := by
  induction h with
  | nil view =>
    intro before hbefore
    simpa using hbefore
  | @cons view tx next txs last hone _ ih =>
    intro before hbefore
    have hall := ih (hbefore.step hone)
    simpa [append_assoc] using hall

/-! ## The transactions in the ledger -/

theorem foldlM_ok {P : β → Prop} {f : β → α → Except Fault β}
    (hstep : ∀ b a b', P b → f b a = .ok b' → P b') {l : List α} :
    ∀ {b r : β}, P b → l.foldlM f b = .ok r → P r := by
  induction l with
  | nil =>
    intro b r hb h
    cases h
    exact hb
  | cons a l ih =>
    intro b r hb h
    rw [foldlM_cons] at h
    obtain ⟨b', hone, h⟩ := bind_eq_ok h
    exact ih (hstep b a b' hb hone) h

namespace Ledger

variable {l l' : Ledger K}

variable {key : Uint256} {sle : SLE K.Entry}

theorem rawErase_txMap (h : l.rawErase key = .ok l') : l'.txMap = l.txMap := by
  unfold rawErase at h
  split at h <;> cases h
  rfl

theorem rawInsert_txMap (h : l.rawInsert key sle = .ok l') : l'.txMap = l.txMap := by
  unfold rawInsert at h
  split at h <;> cases h
  rfl

theorem rawReplace_txMap (h : l.rawReplace key sle = .ok l') : l'.txMap = l.txMap := by
  unfold rawReplace at h
  split at h <;> cases h
  rfl

theorem appendHash_txMap {drop : List Uint256 → List Uint256} (h : l.appendHash key drop = .ok l') :
    l'.txMap = l.txMap := by
  unfold appendHash at h
  dsimp only at h
  split at h
  · exact rawReplace_txMap h
  · exact rawInsert_txMap h

theorem updateSkipList_txMap (h : l.updateSkipList env = .ok l') : l'.txMap = l.txMap := by
  unfold updateSkipList at h
  split at h
  · cases h
    rfl
  · obtain ⟨mid, hmid, h⟩ := bind_eq_ok h
    rw [appendHash_txMap h]
    unfold recordEvery256 at hmid
    split at hmid
    · exact appendHash_txMap hmid
    · cases hmid
      rfl

end Ledger

theorem RawStateTable.apply_txMap {table : RawStateTable K} {l' : Ledger K}
    (h : table.apply l = .ok l') : l'.txMap = l.txMap := by
  refine foldlM_ok (P := fun target => target.txMap = l.txMap) ?_ rfl h
  intro b item b' hb hone
  rw [← hb]
  unfold applyItem at hone
  split at hone
  · exact Ledger.rawErase_txMap hone
  · exact Ledger.rawInsert_txMap hone
  · exact Ledger.rawReplace_txMap hone

theorem rawTxInserts_find? :
    ∀ {l l' : Ledger K}, items.foldlM (fun l item => l.rawTxInsert item.1 item.2) l = .ok l' →
      ∀ id, l'.txMap.find? id = (l.txMap.find? id).or (items.lookup id) := by
  induction items with
  | nil =>
    intro l l' h id
    cases h
    simp
  | cons item items ih =>
    intro l l' h id
    rw [foldlM_cons] at h
    obtain ⟨mid, hmid, h⟩ := bind_eq_ok h
    unfold Ledger.rawTxInsert at hmid
    split at hmid
    · cases hmid
    · rename_i hnone
      cases hmid
      rw [ih h id, find?_insert, lookup_cons_ite]
      split
      · rename_i hid
        rw [hid, hnone]
        rfl
      · rfl

theorem completeLedger_txMap
    (h : completeLedger env built accum closeTime correct closeResolution = .ok l)
    (hempty : built.txMap = OrderedMap.empty) : l.txMap = accum.txs := by
  obtain ⟨applied, happly, h⟩ := bind_eq_ok h
  obtain ⟨skipped, hskip, h⟩ := bind_eq_ok h
  obtain ⟨raw, hraw, htxs⟩ := bind_eq_ok happly
  cases h
  have hmap : applied.txMap = accum.txs := by
    refine ext_find? fun id => ?_
    rw [rawTxInserts_find? htxs id, RawStateTable.apply_txMap hraw, hempty]
    rfl
  exact (Ledger.updateSkipList_txMap hskip).trans hmap

/-! ## The replay -/

theorem emplaces_find? :
    ∀ {ordered : OrderedMap Nat (K.Txn)} (i : Nat), (items.foldl emplace ordered).find? i =
      (ordered.find? i).or ((items.find? fun item => item.2.2.index == i).map fun item => item.2.1) := by
  induction items with
  | nil =>
    intro ordered i
    simp
  | cons item items ih =>
    intro ordered i
    rw [foldl_cons, ih, find?_cons]
    unfold emplace
    by_cases hi : item.2.2.index = i
    · subst hi
      cases hfind : ordered.find? item.2.2.index <;> simp [hfind, find?_insert]
    · have hne : ¬i = item.2.2.index := fun heq => hi heq.symm
      have hbeq : (item.2.2.index == i) = false := by simpa using hi
      rw [hbeq]
      cases hfind : ordered.find? item.2.2.index <;> simp [find?_insert, hne]

theorem Recorded.ordered {replay : Ledger K} (h : Recorded view txs)
    (hmap : replay.txMap = view.txs) (hcount : txs.length ≤ 2 ^ 32) :
    (LedgerReplay.make parent replay).orderedTxns.entries.map Prod.snd = txs := by
  refine OrderedMap.values_eq_of_find? fun i => ?_
  have hentry : ∀ item ∈ replay.txMap.entries, txs[item.2.2.index]? = some item.2.1 := by
    rintro ⟨id, tx, m⟩ hitem
    rw [OrderedMap.mem_entries_iff, hmap] at hitem
    obtain ⟨-, j, hj, hm⟩ := h.listed id tx m hitem
    have hlt : j < txs.length := (List.getElem?_eq_some_iff.mp hj).1
    rw [hm, Nat.mod_eq_of_lt (by omega), hj]
  simp only [LedgerReplay.make]
  rw [emplaces_find?, OrderedMap.find?_empty, Option.none_or]
  cases hfind : replay.txMap.entries.find? fun item => item.2.2.index == i with
  | some item =>
    have hi : item.2.2.index = i := by simpa using List.find?_some hfind
    have hget := hentry item (List.mem_of_find?_eq_some hfind)
    rw [hi] at hget
    exact hget.symm
  | none =>
    cases hget : txs[i]? with
    | none => rfl
    | some tx =>
      obtain ⟨m, hm, hindex⟩ := h.found i tx hget
      have hlt : i < txs.length := (List.getElem?_eq_some_iff.mp hget).1
      rw [Nat.mod_eq_of_lt (by omega)] at hindex
      rw [← hmap, ← OrderedMap.mem_entries_iff] at hm
      have hnot := List.find?_eq_none.mp hfind _ hm
      simp [hindex] at hnot

theorem Applies.replay (h : Applies env view txs last) : ∀ before : List (K.Txn),
      replayTransactions env tapNONE txs ⟨view, before⟩ = .ok ⟨last, before ++ txs⟩ := by
  induction h with
  | nil view =>
    intro before
    simp [replayTransactions]
  | @cons view tx next txs last hone _ ih =>
    intro before
    rw [replayTransactions, hone]
    change replayTransactions env tapNONE txs ⟨next, before ++ [tx]⟩ = _
    rw [ih, append_assoc, singleton_append]

theorem freshLedger_txMap (parent : Ledger K) (closeTime : Nat) :
    (freshLedger env parent closeTime).txMap = OrderedMap.empty := by
  unfold freshLedger
  dsimp only
  split <;> rfl

theorem completeLedger_info
    (h : completeLedger env built accum closeTime correct closeResolution = .ok l) :
    l.info.closeTime = closeTime ∧ l.info.closeTimeResolution = closeResolution ∧
      (l.info.closeFlags &&& sLCF_NoConsensusTime == 0) = correct := by
  obtain ⟨_, _, h⟩ := bind_eq_ok h
  obtain ⟨_, _, h⟩ := bind_eq_ok h
  cases h
  refine ⟨rfl, rfl, ?_⟩
  change ((if correct then 0 else sLCF_NoConsensusTime) &&& sLCF_NoConsensusTime == 0) = correct
  cases correct <;> decide

theorem buildLedger_applies (hagree : env.RetryAgrees) {closeTimeCorrect : Bool}
    {txns : CanonicalTXSet K}
    (h : buildLedger env parent closeTime closeTimeCorrect closeResolution txns failed = .ok b) :
    ∃ view, Applies env { base := freshLedger env parent closeTime } b.txs view ∧
      Recorded view b.txs ∧ b.ledger.txMap = view.txs ∧
      completeLedger env (freshLedger env parent closeTime) view closeTime closeTimeCorrect
        closeResolution = .ok b.ledger := by
  obtain ⟨accum, hrun, h⟩ := bind_eq_ok h
  obtain ⟨⟨rest, p⟩, hpasses, hrun⟩ := bind_eq_ok hrun
  obtain ⟨l, hl, h⟩ := bind_eq_ok h
  cases hrun
  cases h
  have happlies : Applies env _ p.txs p.view :=
    passesFrom_reached hagree 0 true _ { view := _, failed := _ } (.nil _) hpasses
  have hrec : Recorded p.view p.txs := by
    simpa using happlies.recorded (.fresh _)
  exact ⟨p.view, happlies, hrec, completeLedger_txMap hl (freshLedger_txMap parent closeTime), hl⟩

theorem replay_reproduces (hagree : env.RetryAgrees) {parent : Ledger K} {closeTime closeResolution : Nat}
    {closeTimeCorrect : Bool} {txns : CanonicalTXSet K} {failed : Finset Uint256} {b : Built K}
    (h : buildLedger env parent closeTime closeTimeCorrect closeResolution txns failed = .ok b)
    (hcount : b.ledger.txMap.entries.length ≤ 2 ^ 32) :
    (∀ tx, tx ∈ b.txs ↔ ∃ m, b.ledger.txMap.find? (K.transactionID tx) = some (tx, m)) ∧
      replayLedger env (LedgerReplay.make parent b.ledger) tapNONE = .ok b := by
  obtain ⟨view, happlies, hrec, hmap, hl⟩ := buildLedger_applies hagree h
  have hlen : b.txs.length ≤ 2 ^ 32 := by
    rw [← hrec.count, OpenView.txCount, ← hmap]
    exact hcount
  obtain ⟨htime, hresolution, hflags⟩ := completeLedger_info hl
  constructor
  · intro tx
    rw [hmap]
    constructor
    · intro htx
      obtain ⟨i, hi⟩ := mem_iff_getElem?.mp htx
      obtain ⟨m, hm, -⟩ := hrec.found i tx hi
      exact ⟨m, hm⟩
    · rintro ⟨m, hm⟩
      obtain ⟨-, i, hi, -⟩ := hrec.listed _ tx m hm
      exact mem_iff_getElem?.mpr ⟨i, hi⟩
  · unfold replayLedger
    dsimp only
    rw [hrec.ordered hmap hlen]
    simp only [LedgerReplay.make, htime, hresolution, hflags]
    unfold buildLedgerImpl
    dsimp only
    rw [happlies.replay []]
    change (completeLedger env _ view _ _ _ >>= _) = _
    rw [hl]
    rfl

/-! ## More transactions than indexes -/

theorem replayTransactions_length :
    ∀ {a r : Applied K}, replayTransactions env flags txns a = .ok r →
      r.txs.length ≤ a.txs.length + txns.length := by
  induction txns with
  | nil =>
    intro a r h
    cases h
    simp
  | cons tx txns ih =>
    intro a r h
    obtain ⟨res, _, h⟩ := bind_eq_ok h
    have hle := ih h
    dsimp only at hle
    split at hle <;> simp only [length_append, length_cons, length_nil] at hle ⊢ <;> omega

theorem replayLedger_length {data : LedgerReplay K} (h : replayLedger env data flags = .ok b) :
    b.txs.length ≤ data.orderedTxns.entries.length := by
  obtain ⟨accum, hrun, h⟩ := bind_eq_ok h
  obtain ⟨l, _, h⟩ := bind_eq_ok h
  cases h
  simpa using replayTransactions_length hrun

section Crowd

abbrev Plain : Kinds := ⟨Unit, Nat, id, Unit, Unit⟩

def idleEnv : Env Plain where
  attempt view _ _ := .applied view.items ()
  setup _ := ()
  enabledSHAMapV2 _ := false
  stateHash _ _ := 0
  txHash _ _ := 0
  calculateLedgerHash _ := 0
  keylets :=
    { skip := 0
      skipAt := fun g => g.toNat + 1
      injective := fun _ _ h => UInt32.toNat_inj.1 (Nat.succ.inj h)
      ne_skip := fun _ => Nat.succ_ne_zero _ }

theorem idleEnv_agrees : idleEnv.RetryAgrees := by
  intro view tx items record h
  exact h

def crowdKey (id : Nat) : TxKey := toLex (0, toLex (0, id))

theorem crowd_sorted (n : Nat) :
    ((List.range n).map fun id => (crowdKey id, id)).Pairwise fun a b => a.1 < b.1 := by
  rw [pairwise_map]
  refine pairwise_lt_range.imp ?_
  intro i j hij
  simpa [crowdKey, Prod.Lex.toLex_lt_toLex] using hij

def crowd (n : Nat) : CanonicalTXSet Plain := ⟨⟨_, crowd_sorted n⟩⟩

def idleParent : Ledger Plain where
  info := { seq := 5 }
  stateMap := OrderedMap.empty
  txMap := OrderedMap.empty
  is_v2 := false
  rules := ()

theorem crowd_txns (n : Nat) : (crowd n).txns = List.range n := by
  simp [CanonicalTXSet.txns, crowd, Function.comp_def]

theorem tryAll_idle {txns : List Nat} (pass : Nat) (hnodup : txns.Nodup) :
    ∀ {p : Progress Plain}, p.view.base.txMap = OrderedMap.empty →
      (∀ tx ∈ txns, p.view.txs.find? tx = none) →
      ∃ p' : Progress Plain, tryAll idleEnv pass true txns p = .ok ([], p') ∧
        p'.txs = p.txs ++ txns ∧ p'.view.items = p.view.items := by
  induction txns with
  | nil =>
    intro p _ _
    exact ⟨p, rfl, by simp, rfl⟩
  | cons tx txns ih =>
    intro p hbase hnew
    obtain ⟨hfirst, hrest⟩ := nodup_cons.mp hnodup
    have hnone := hnew tx mem_cons_self
    have happ : ∃ m, applyTransaction idleEnv p.view tx true tapNONE =
        .ok (.success, { p.view with txs := p.view.txs.insert tx (tx, m) }) := by
      refine ⟨⟨p.view.txCount % 2 ^ 32, ()⟩, ?_⟩
      simp only [applyTransaction, idleEnv, OpenView.rawTxInsert, id, hnone]
      rfl
    obtain ⟨m, happ⟩ := happ
    have hexists : ¬(pass = 0 ∧ p.view.base.txExists (Plain.transactionID tx) = true) := by
      simp [Ledger.txExists, hbase]
    rw [tryAll, if_neg hexists, happ]
    have hstill : ∀ other ∈ txns,
        (p.view.txs.insert tx (tx, m)).find? other = none := by
      intro other hother
      have hne : other ≠ tx := fun heq => hfirst (heq ▸ hother)
      rw [find?_insert, if_neg hne]
      exact hnew other (mem_cons_of_mem _ hother)
    obtain ⟨p', hrun, htxs, hitems⟩ := ih hrest
      (p := ⟨⟨⟨p.view.base, p.view.items, p.view.txs.insert tx (tx, m)⟩, p.txs ++ [tx]⟩,
        p.failed, p.changes + 1⟩) hbase hstill
    exact ⟨p', hrun, by simpa using htxs, hitems⟩

theorem passesFrom_nil (env : Env K) (pass : Nat) (retry : Bool) (p : Progress K) :
    ∃ p', passesFrom env pass retry [] p = .ok ([], p') ∧ p'.toApplied = p.toApplied := by
  rw [passesFrom]
  split
  · by_cases hlast : retry = false
    · refine ⟨{ p with changes := 0 }, ?_, rfl⟩
      simp only [tryAll, bind, Except.bind, hlast, and_self, if_true]
      rfl
    · obtain ⟨p', hrun, hp'⟩ := passesFrom_nil env (pass + 1) false { p with changes := 0 }
      refine ⟨p', ?_, hp'⟩
      simpa [tryAll, bind, Except.bind, hlast] using hrun
  · exact ⟨p, rfl, rfl⟩
termination_by LEDGER_TOTAL_PASSES - pass

theorem rawTxInserts_ok (hsorted : items.Pairwise fun a b => a.1 < b.1) :
    ∀ {l : Ledger K}, (∀ item ∈ items, l.txMap.find? item.1 = none) →
      ∃ l', items.foldlM (fun l item => l.rawTxInsert item.1 item.2) l = .ok l' ∧
        l'.stateMap = l.stateMap ∧ l'.info = l.info := by
  induction items with
  | nil =>
    intro l _
    exact ⟨l, rfl, rfl, rfl⟩
  | cons item items ih =>
    intro l hnew
    obtain ⟨hlt, hrest⟩ := pairwise_cons.mp hsorted
    have hone : l.rawTxInsert item.1 item.2 = .ok { l with txMap := l.txMap.insert item.1 item.2 } := by
      simp only [Ledger.rawTxInsert, hnew item mem_cons_self]
    obtain ⟨l', hrun, hstate, hinfo⟩ :=
      ih hrest (l := { l with txMap := l.txMap.insert item.1 item.2 }) (by
        intro other hother
        rw [find?_insert, if_neg (hlt other hother).ne']
        exact hnew other (mem_cons_of_mem _ hother))
    refine ⟨l', ?_, hstate, hinfo⟩
    rw [foldlM_cons, hone]
    exact hrun

theorem crowd_built (n : Nat) :
    ∃ b, buildLedger idleEnv idleParent 0 true 30 (crowd n) ∅ = .ok b ∧ b.txs.length = n := by
  obtain ⟨p, hfirst, htxs, hitems⟩ := tryAll_idle 0 (nodup_range (n := n))
    (p := ⟨⟨⟨freshLedger idleEnv idleParent 0, {}, OrderedMap.empty⟩, []⟩, ∅, 0⟩)
    (freshLedger_txMap idleParent 0) (fun _ _ => rfl)
  obtain ⟨p', hrest, hp'⟩ := passesFrom_nil idleEnv 1 (if p.changes = 0 ∨ 0 ≥ LEDGER_RETRY_PASSES then
    false else true) p
  have hrun : applyTransactions idleEnv (crowd n).txns ∅ { base := freshLedger idleEnv idleParent 0 } =
      .ok ([], p') := by
    rw [applyTransactions, passesFrom, if_pos (by decide), crowd_txns, hfirst]
    change (if p.changes = 0 ∧ true = false then _ else _) = _
    rw [if_neg (by simp)]
    exact hrest
  obtain ⟨l, hins, hstate, hinfo⟩ := rawTxInserts_ok p'.view.txs.sorted
    (l := (freshLedger idleEnv idleParent 0).rawDestroyXRP 0) (fun _ _ => rfl)
  have happly : p'.view.apply (freshLedger idleEnv idleParent 0) = .ok l := by
    have hnone : p'.view.items = {} := by rw [hp', hitems]
    rw [OpenView.apply, hnone]
    exact hins
  have hskip : ∃ l', l.updateSkipList idleEnv = .ok l' := by
    have hseq : l.info.seq = 6 := by rw [hinfo]; rfl
    have hempty : l.stateMap = OrderedMap.empty := by rw [hstate]; rfl
    rw [Ledger.updateSkipList, hseq, if_neg (by decide)]
    simp only [Ledger.recordEvery256]
    rw [if_neg (by decide)]
    simp only [bind, Except.bind, Ledger.appendHash, Ledger.rawInsert, hempty, find?_empty]
    exact ⟨_, rfl⟩
  obtain ⟨l', hskip⟩ := hskip
  refine ⟨⟨l'.setAccepted idleEnv 0 30 true, p'.txs⟩, ?_, ?_⟩
  · rw [buildLedger, buildLedgerImpl]
    dsimp only
    rw [hrun]
    change (completeLedger idleEnv _ p'.view _ _ _ >>= _) = _
    rw [completeLedger, happly]
    change ((l.updateSkipList idleEnv >>= _) >>= _) = _
    rw [hskip]
    rfl
  · rw [hp', htxs]
    simp

theorem replay_reproduces_two : ∃ b, buildLedger idleEnv idleParent 0 true 30 (crowd 2) ∅ = .ok b ∧
    b.txs.length = 2 ∧ replayLedger idleEnv (LedgerReplay.make idleParent b.ledger) tapNONE = .ok b := by
  obtain ⟨b, hbuilt, hlen⟩ := crowd_built 2
  obtain ⟨view, -, hrec, hmap, -⟩ := buildLedger_applies idleEnv_agrees hbuilt
  refine ⟨b, hbuilt, hlen, (replay_reproduces idleEnv_agrees hbuilt ?_).2⟩
  rw [hmap, ← OpenView.txCount, hrec.count, hlen]
  decide

/-- With one transaction more than there are indexes, two share one and only one is applied. -/
theorem replay_loses_transaction : idleEnv.RetryAgrees ∧
    ∃ b, buildLedger idleEnv idleParent 0 true 30 (crowd (2 ^ 32 + 1)) ∅ = .ok b ∧
      replayLedger idleEnv (LedgerReplay.make idleParent b.ledger) tapNONE ≠ .ok b := by
  obtain ⟨b, hbuilt, hlen⟩ := crowd_built (2 ^ 32 + 1)
  obtain ⟨view, -, hrec, hmap, -⟩ := buildLedger_applies idleEnv_agrees hbuilt
  refine ⟨idleEnv_agrees, b, hbuilt, fun hreplay => ?_⟩
  have hshort := (replayLedger_length hreplay).trans (length_le_of_keys_lt (n := 2 ^ 32) ?_)
  · omega
  -- the keys are indexes of metadata
  rintro ⟨i, tx⟩ he
  rw [mem_entries_iff] at he
  simp only [LedgerReplay.make] at he
  rw [emplaces_find?, find?_empty, Option.none_or, Option.map_eq_some_iff] at he
  obtain ⟨⟨id, other, m⟩, hitem, -⟩ := he
  have hi : m.index = i := by simpa using find?_some hitem
  have hmem := mem_of_find?_eq_some hitem
  rw [mem_entries_iff, hmap] at hmem
  obtain ⟨-, j, -, hj⟩ := hrec.listed id other m hmem
  dsimp only
  omega

end Crowd

end Ripple.App
