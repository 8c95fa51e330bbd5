import Mathlib.Tactic.Common

/-!
# Ripple.Protocol.TER

The transaction results of `protocol/TER.h` that the modelled functions name, with the classes that
the source tells apart by ranges of codes.
-/

namespace Ripple

/-- `TER` and `NotTEC`: an `int`. -/
abbrev TER := Int

namespace TER

def telLOCAL_ERROR : TER := -399
def telFAILED_PROCESSING : TER := -395
def telINSUF_FEE_P : TER := -394
def telCAN_NOT_QUEUE : TER := -392
def telCAN_NOT_QUEUE_BALANCE : TER := -391
def telCAN_NOT_QUEUE_BLOCKS : TER := -390
def telCAN_NOT_QUEUE_BLOCKED : TER := -389
def telCAN_NOT_QUEUE_FEE : TER := -388
def telCAN_NOT_QUEUE_FULL : TER := -387
def temMALFORMED : TER := -299
def temINVALID : TER := -278
def temINVALID_FLAG : TER := -277
def tefFAILURE : TER := -199
def tefALREADY : TER := -198
def tefEXCEPTION : TER := -193
def tefPAST_SEQ : TER := -190
def terRETRY : TER := -99
def terNO_ACCOUNT : TER := -96
def terPRE_SEQ : TER := -92
def terQUEUED : TER := -89
def tesSUCCESS : TER := 0
def tecCLAIM : TER := 100
def tecPATH_PARTIAL : TER := 101
def tecPATH_DRY : TER := 128

variable (x : TER)

def isTelLocal : Bool := decide (x ≥ telLOCAL_ERROR ∧ x < temMALFORMED)
def isTemMalformed : Bool := decide (x ≥ temMALFORMED ∧ x < tefFAILURE)
def isTefFailure : Bool := decide (x ≥ tefFAILURE ∧ x < terRETRY)
def isTecClaim : Bool := decide (x ≥ tecCLAIM)

end TER

end Ripple
