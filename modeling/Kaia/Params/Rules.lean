import Mathlib

/-! # Fork rules and the description of contract code

The rules of a block say which forks are active at its number. A contract account
keeps one byte about its code: the low half names the code format and the high half
the forks the contract was deployed under.
-/

namespace Kaia.Params

/-- The forks that are active at a block number. -/
structure Rules where
  chainID : ℕ
  isIstanbul : Bool
  isLondon : Bool
  isEthTxType : Bool
  isMagma : Bool
  isKore : Bool
  isShanghai : Bool
  isCancun : Bool
  isKaia : Bool
  isRandao : Bool
  deriving DecidableEq

def codeFormatLast : ℕ := 1

def CodeFormat.validate (t : ℕ) : Bool := t < codeFormatLast

def vmVersion0 : ℕ := 0

def vmVersion1 : ℕ := 1

abbrev CodeInfo := ℕ

def newCodeInfo (codeFormat vmVersion : ℕ) : CodeInfo := codeFormat % 16 + vmVersion % 16 * 16

def newCodeInfoWithRules (codeFormat : ℕ) (r : Rules) : CodeInfo :=
  newCodeInfo codeFormat (if r.isLondon || r.isIstanbul then vmVersion1 else vmVersion0)

namespace CodeInfo

def getCodeFormat (t : CodeInfo) : ℕ := t % 16

def getVmVersion (t : CodeInfo) : ℕ := t / 16 % 16

end CodeInfo

end Kaia.Params
