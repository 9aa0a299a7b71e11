import Forceio.Chain.NativeActions

/-!
# Setting the code and the abi of an account: `eosio_contract.cpp`

`setcode` and `setabi`. Both charge the account for the difference of the sizes before and after.

* `fc::raw::unpack`, `sha256` and `wasm_interface::validate` are given by `CodeEnv`. The hash is
  given the length of the code as a `uint32_t`.
-/

namespace Forceio.Chain

open Forceio.Lib Exec

/-- `setcode`. -/
structure SetCode where
  account : AccountName
  vmtype : UInt8
  vmversion : UInt8
  code : Bytes

/-- `setabi`. -/
structure SetAbi where
  account : AccountName
  abi : Bytes

/-- What the two actions use from elsewhere. -/
structure CodeEnv where
  setcode : Bytes → Except FcException SetCode
  setabi : Bytes → Except FcException SetAbi
  sha256 : Bytes → Sha256
  validate : Bytes → Except FcException Unit

namespace CodeEnv

variable (code : CodeEnv)

/-- The id of code: zero without code. -/
def codeId (bytes : Bytes) : Sha256 :=
  if bytes.length > 0 then code.sha256 (bytes.take (bytes.length % 2 ^ 32)) else default

/-- Code is validated unless it is empty. -/
def validateCode (bytes : Bytes) : Except FcException Unit :=
  if bytes.length > 0 then code.validate bytes else pure ()

end CodeEnv

section Handlers

variable {Key : Type} [LinearOrder Key] (code : CodeEnv) (ctx : ApplyContext Key)

open Database (accountsTable accountSequencesTable)
open ApplyState (onDb addRamUsage requireAuthorization)

/-- Charge an account whose data has another size now. -/
def chargeResized (account : AccountName) (oldSize newSize : Int) : ApplyM Key Unit :=
  if newSize ≠ oldSize then addRamUsage account (newSize - oldSize) else pure ()

/-- `apply_system_native_setcode`. -/
def applySystemNativeSetcode : ApplyM Key Unit := do
  let act ← lift (ctx.act.dataAs ctx.control.rootAccount "setcode" code.setcode)
  requireAuthorization ctx act.account
  require (act.vmtype = 0) .invalidContractVmType "code should be 0"
  require (act.vmversion = 0) .invalidContractVmVersion "version should be 0"
  lift (code.validateCode act.code)
  let (n, account) ← onDb (accountsTable.get fun a => a.name = act.account)
  let oldSize : Int := account.code.length * setcodeRamBytesMultiplier
  let newSize : Int := act.code.length * setcodeRamBytesMultiplier
  require (account.codeVersion ≠ code.codeId act.code) .setExactCode
    "contract is already running this version of code"
  onDb (accountsTable.modify n (.setCode (code.codeId act.code) act.code)
    (AccountObject.keepsKeys_setCode (code.codeId act.code) act.code))
  let _ ← onDb (accountSequencesTable.get fun a => a.name = act.account)
  chargeResized act.account oldSize newSize

/-- `apply_system_native_setabi`. -/
def applySystemNativeSetabi : ApplyM Key Unit := do
  let act ← lift (ctx.act.dataAs ctx.control.rootAccount "setabi" code.setabi)
  requireAuthorization ctx act.account
  let (n, account) ← onDb (accountsTable.get fun a => a.name = act.account)
  let oldSize : Int := account.abi.length
  let newSize : Int := act.abi.length
  onDb (accountsTable.modify n (.setAbi act.abi) (AccountObject.keepsKeys_setAbi act.abi))
  let _ ← onDb (accountSequencesTable.get fun a => a.name = act.account)
  chargeResized act.account oldSize newSize

end Handlers

end Forceio.Chain
