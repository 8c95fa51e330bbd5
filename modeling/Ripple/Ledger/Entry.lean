import Mathlib.Data.UInt
import Ripple.Protocol.STAmount

/-!
# Ripple.Ledger.Entry

Ledger entries and the indexes they are stored under, from `protocol/LedgerFormats.h`,
`LedgerFormats.cpp`, `STLedgerEntry.cpp` and `Indexes.cpp`.

An entry holds the fields that the modelled functions read or write. `SLE` adds the two fields that
thread the transactions of an entry together; what is left when they are set aside is the `Entry`.
-/

namespace Ripple.Ledger

open Protocol

/-! ## Indexes -/

/-- A directory: the key of its root, and the hashes that its further pages are stored under.
`sha512Half n` stands for `sha512Half(spaceDirNode, key, n)`; what is asked of it is said by
`NoCollision`. -/
structure Directory where
  key : Uint256
  sha512Half : ℕ → Uint256

def getDirNodeIndex (uDirRoot : Directory) (uNodeIndex : ℕ) : Uint256 :=
  if uNodeIndex = 0 then uDirRoot.key else uDirRoot.sha512Half uNodeIndex

namespace Directory

/-- No two pages of this directory are stored under one key. A page number has 64 bits. -/
structure NoCollision (directory : Directory) : Prop where
  root : ∀ n < 2 ^ 64, n ≠ 0 → directory.sha512Half n ≠ directory.key
  pages : ∀ m < 2 ^ 64, ∀ n < 2 ^ 64, m ≠ 0 → n ≠ 0 →
    directory.sha512Half m = directory.sha512Half n → m = n

theorem NoCollision.index_inj {directory : Directory} (h : directory.NoCollision) {m n : ℕ}
    (hm : m < 2 ^ 64) (hn : n < 2 ^ 64)
    (heq : getDirNodeIndex directory m = getDirNodeIndex directory n) : m = n := by
  unfold getDirNodeIndex at heq
  by_cases hm0 : m = 0
  · by_cases hn0 : n = 0
    · rw [hm0, hn0]
    · rw [if_pos hm0, if_neg hn0] at heq
      exact absurd heq.symm (h.root n hn hn0)
  · by_cases hn0 : n = 0
    · rw [if_neg hm0, if_pos hn0] at heq
      exact absurd heq (h.root m hm hm0)
    · rw [if_neg hm0, if_neg hn0] at heq
      exact h.pages m hm n hn hm0 hn0 heq

end Directory

/-! ## Types -/

inductive LedgerEntryType where
  | ltACCOUNT_ROOT
  | ltDIR_NODE
  | ltRIPPLE_STATE
  | ltTICKET
  | ltSIGNER_LIST
  | ltOFFER
  | ltLEDGER_HASHES
  | ltAMENDMENTS
  | ltFEE_SETTINGS
  | ltESCROW
  | ltPAYCHAN
  | ltCHECK
  | ltDEPOSIT_PREAUTH
  | ltNICKNAME
  | ltNotUsed01
deriving DecidableEq

/-- The types whose fields no modelled function looks at. -/
inductive OtherType where
  | ticket
  | signerList
  | ledgerHashes
  | amendments
  | feeSettings
  | check
  | depositPreauth
  | nickname
  | notUsed01
deriving DecidableEq

def OtherType.type : OtherType → LedgerEntryType
  | ticket => .ltTICKET
  | signerList => .ltSIGNER_LIST
  | ledgerHashes => .ltLEDGER_HASHES
  | amendments => .ltAMENDMENTS
  | feeSettings => .ltFEE_SETTINGS
  | check => .ltCHECK
  | depositPreauth => .ltDEPOSIT_PREAUTH
  | nickname => .ltNICKNAME
  | notUsed01 => .ltNotUsed01

def hasFlag (flags flag : UInt32) : Bool := flags &&& flag != 0

/-! ## Entries -/

/-- A page of a directory. An absent link is 0. -/
structure DirNode where
  owner : Option AccountID := none
  indexes : List Uint256
  rootIndex : Uint256
  indexNext : Nat := 0
  indexPrevious : Nat := 0
deriving DecidableEq

inductive Entry where
  | accountRoot (balance : STAmount)
  | dirNode (node : DirNode)
  | offer (takerPays takerGets : STAmount)
  | rippleState (lowLimit highLimit : STAmount)
  | escrow (amount : STAmount)
  | payChan (amount balance : STAmount)
  | other (type : OtherType)
deriving DecidableEq

namespace Entry

def getType : Entry → LedgerEntryType
  | accountRoot _ => .ltACCOUNT_ROOT
  | dirNode _ => .ltDIR_NODE
  | offer _ _ => .ltOFFER
  | rippleState _ _ => .ltRIPPLE_STATE
  | escrow _ => .ltESCROW
  | payChan _ _ => .ltPAYCHAN
  | other type => type.type

end Entry

/-- `STLedgerEntry`. -/
structure SLE where
  entry : Entry
  previousTxnID : Uint256 := 0
  previousTxnLgrSeq : UInt32 := 0
deriving DecidableEq

namespace SLE

def getType (sle : SLE) : LedgerEntryType := sle.entry.getType

end SLE

end Ripple.Ledger
