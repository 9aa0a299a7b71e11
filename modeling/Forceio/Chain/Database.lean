import Forceio.Chain.Name
import Forceio.Chain.ResourceLimits

/-!
# The chain state: `account_object.hpp`, `permission_object.hpp`, `permission_link_object.hpp`,
`contract_table_objects.hpp`, `generated_transaction_object.hpp`

The objects of the state database with their unique indices, and what a row of each is billed.

* Fields no modelled function reads (creation dates, sequence counters, times of updates) are left out.
* Two rows with the same table and primary key clash in a secondary index, whatever their secondary
  keys are: the index by secondary key ends with the primary key.
* The five kinds of secondary index are one definition over `IndexKind`. A floating point key is its
  bits; a key that is not a number never gets here.
-/

namespace Forceio.Chain

open Forceio.Lib

/-! ## Accounts and permissions -/

/-- `account_object`. -/
structure AccountObject where
  name : AccountName
  privileged : Bool := false
  codeVersion : Sha256 := default
  code : Bytes := []
  abi : Bytes := []
  deriving DecidableEq

instance : Indexed AccountObject where
  clash a b := a.name = b.name
  symm h := h.symm
  decidable _ _ := inferInstance

namespace AccountObject

/-- The change `setcode` makes. -/
def setCode (codeId : Sha256) (code : Bytes) (a : AccountObject) : AccountObject :=
  { a with codeVersion := codeId, code := code }

/-- The change `setabi` makes. -/
def setAbi (abi : Bytes) (a : AccountObject) : AccountObject := { a with abi := abi }

theorem keepsKeys_setCode (codeId : Sha256) (code : Bytes) :
    Table.KeepsKeys (setCode codeId code) := fun _ _ => Iff.rfl

theorem keepsKeys_setAbi (abi : Bytes) : Table.KeepsKeys (setAbi abi) := fun _ _ => Iff.rfl

end AccountObject

/-- `account_sequence_object`. -/
structure AccountSequenceObject where
  name : AccountName
  deriving DecidableEq

instance : Indexed AccountSequenceObject where
  clash a b := a.name = b.name
  symm h := h.symm
  decidable _ _ := inferInstance

/-- `permission_usage_object`, with no unique index besides its id. -/
structure PermissionUsageObject where
  lastUsed : Nat
  deriving DecidableEq

instance : Indexed PermissionUsageObject where
  clash _ _ := False
  symm h := h
  decidable _ _ := inferInstance

/-- `permission_object`; `usageId` and `parent` are ids of rows. -/
structure PermissionObject (Key : Type) where
  usageId : Nat
  parent : Nat
  owner : AccountName
  name : AccountName
  lastUpdated : Nat
  auth : Authority Key
  deriving DecidableEq

/-- Unique by `by_owner`; `by_parent` and `by_name` end with the id. -/
instance {Key : Type} : Indexed (PermissionObject Key) where
  clash a b := a.owner = b.owner ∧ a.name = b.name
  symm h := ⟨h.1.symm, h.2.symm⟩
  decidable _ _ := inferInstance

/-- `permission_link_object`. -/
structure PermissionLinkObject where
  account : AccountName
  code : AccountName
  messageType : AccountName
  requiredPermission : AccountName
  deriving DecidableEq

/-- Unique by `by_action_name`; the key of `by_permission_name` contains that one. -/
instance : Indexed PermissionLinkObject where
  clash a b := a.account = b.account ∧ a.code = b.code ∧ a.messageType = b.messageType
  symm h := ⟨h.1.symm, h.2.1.symm, h.2.2.symm⟩
  decidable _ _ := inferInstance

namespace PermissionObject

variable {Key : Type}

/-- The change `modify_permission` makes. -/
def setAuth (auth : Authority Key) (now : Nat) (p : PermissionObject Key) : PermissionObject Key :=
  { p with auth := auth, lastUpdated := now }

theorem keepsKeys_setAuth (auth : Authority Key) (now : Nat) :
    Table.KeepsKeys (setAuth auth now) := fun _ _ => Iff.rfl

end PermissionObject

namespace PermissionLinkObject

/-- The change `linkauth` makes to a link. -/
def setRequired (requirement : AccountName) (l : PermissionLinkObject) : PermissionLinkObject :=
  { l with requiredPermission := requirement }

theorem keepsKeys_setRequired (requirement : AccountName) :
    Table.KeepsKeys (setRequired requirement) := fun _ _ => Iff.rfl

end PermissionLinkObject

/-! ## Contract tables -/

/-- `table_id_object`. -/
structure TableIdObject where
  code : AccountName
  scope : AccountName
  table : AccountName
  payer : AccountName
  count : UInt32 := 0
  deriving DecidableEq

instance : Indexed TableIdObject where
  clash a b := a.code = b.code ∧ a.scope = b.scope ∧ a.table = b.table
  symm h := ⟨h.1.symm, h.2.1.symm, h.2.2.symm⟩
  decidable _ _ := inferInstance

/-- `key_value_object`; `tId` is the id of its table. -/
structure KeyValueObject where
  tId : Nat
  primaryKey : UInt64
  payer : AccountName
  value : Bytes
  deriving DecidableEq

instance : Indexed KeyValueObject where
  clash a b := a.tId = b.tId ∧ a.primaryKey = b.primaryKey
  symm h := ⟨h.1.symm, h.2.symm⟩
  decidable _ _ := inferInstance

/-- The instances of `secondary_index`. -/
inductive IndexKind where
  | idx64
  | idx128
  | idx256
  | idxDouble
  | idxLongDouble
  deriving DecidableEq, Repr

/-- `secondary_key_type`. -/
abbrev IndexKind.SecondaryKey : IndexKind → Type
  | .idx64 => BitVec 64
  | .idx128 => BitVec 128
  | .idx256 => BitVec 128 × BitVec 128
  | .idxDouble => BitVec 64
  | .idxLongDouble => BitVec 128

/-- `secondary_index::index_object`. -/
structure IndexObject (k : IndexKind) where
  tId : Nat
  primaryKey : UInt64
  payer : AccountName
  secondaryKey : k.SecondaryKey

instance {k : IndexKind} : Indexed (IndexObject k) where
  clash a b := a.tId = b.tId ∧ a.primaryKey = b.primaryKey
  symm h := ⟨h.1.symm, h.2.symm⟩
  decidable _ _ := inferInstance

namespace TableIdObject

/-- `++t.count`. -/
def incCount (t : TableIdObject) : TableIdObject := { t with count := t.count + 1 }

/-- `--t.count`. -/
def decCount (t : TableIdObject) : TableIdObject := { t with count := t.count - 1 }

theorem keepsKeys_incCount : Table.KeepsKeys incCount := fun _ _ => Iff.rfl

theorem keepsKeys_decCount : Table.KeepsKeys decCount := fun _ _ => Iff.rfl

end TableIdObject

namespace KeyValueObject

/-- The change `db_update_i64` makes. -/
def set (payer : AccountName) (value : Bytes) (o : KeyValueObject) : KeyValueObject :=
  { o with payer := payer, value := value }

theorem keepsKeys_set (payer : AccountName) (value : Bytes) :
    Table.KeepsKeys (set payer value) := fun _ _ => Iff.rfl

end KeyValueObject

namespace IndexObject

variable {k : IndexKind}

/-- The change `generic_index::update` makes. -/
def set (payer : AccountName) (secondary : k.SecondaryKey) (o : IndexObject k) : IndexObject k :=
  { o with payer := payer, secondaryKey := secondary }

theorem keepsKeys_set (payer : AccountName) (secondary : k.SecondaryKey) :
    Table.KeepsKeys (set payer secondary) := fun _ _ => Iff.rfl

end IndexObject

/-! ## Generated transactions -/

/-- `generated_transaction_object`. -/
structure GeneratedTransactionObject where
  trxId : Sha256
  sender : AccountName
  senderId : BitVec 128
  payer : AccountName
  delayUntil : Nat
  expiration : Nat
  published : Nat
  packedTrx : Bytes
  deriving DecidableEq

/-- Unique by `by_trx_id` and by `by_sender_id`; the other indices end with the id. -/
instance : Indexed GeneratedTransactionObject where
  clash a b := a.trxId = b.trxId ∨ a.sender = b.sender ∧ a.senderId = b.senderId
  symm h := h.imp Eq.symm fun h => ⟨h.1.symm, h.2.symm⟩
  decidable _ _ := inferInstance

namespace GeneratedTransactionObject

/-- The change a replacement makes: neither the sender and the id it was found by nor `trx_id`. -/
def replace (payer : AccountName) (published delayUntil expiration : Nat) (packedTrx : Bytes)
    (g : GeneratedTransactionObject) : GeneratedTransactionObject :=
  { g with payer := payer, published := published, delayUntil := delayUntil,
           expiration := expiration, packedTrx := packedTrx }

theorem keepsKeys_replace (payer : AccountName) (published delayUntil expiration : Nat)
    (packedTrx : Bytes) :
    Table.KeepsKeys (replace payer published delayUntil expiration packedTrx) := fun _ _ => Iff.rfl

end GeneratedTransactionObject

/-! ## What a row is billed -/

/-- `config::billable_size_v`: rounded up to the `billable_alignment`. -/
def billableSizeV (value : Nat) : Nat := (value + 16 - 1) / 16 * 16

/-- `config::overhead_per_row_per_index_ram_bytes`. -/
def overheadPerRowPerIndexRamBytes : Nat := 32

/-- `config::overhead_per_account_ram_bytes`. -/
def overheadPerAccountRamBytes : Nat := 2 * 1024

/-- `config::setcode_ram_bytes_multiplier`. -/
def setcodeRamBytesMultiplier : Nat := 10

/-- `config::fixed_overhead_shared_vector_ram_bytes`. -/
def fixedOverheadSharedVectorRamBytes : Nat := 16

/-- `billable_size_v<permission_object>`, with the empty `shared_authority` in it. -/
def permissionObjectSize : Nat :=
  billableSizeV (billableSizeV (3 * fixedOverheadSharedVectorRamBytes + 4) + 64 +
    5 * overheadPerRowPerIndexRamBytes)

/-- `billable_size_v<permission_link_object>`. -/
def permissionLinkObjectSize : Nat := billableSizeV (40 + overheadPerRowPerIndexRamBytes * 3)

/-- `billable_size_v<table_id_object>`. -/
def tableIdObjectSize : Nat := billableSizeV (44 + overheadPerRowPerIndexRamBytes * 2)

/-- `billable_size_v<key_value_object>`. -/
def keyValueObjectSize : Nat := billableSizeV (32 + 8 + 4 + overheadPerRowPerIndexRamBytes * 2)

/-- `billable_size_v` of the objects of a secondary index. -/
def IndexKind.objectSize : IndexKind → Nat
  | .idx64 => billableSizeV (24 + 8 + overheadPerRowPerIndexRamBytes * 3)
  | .idx128 => billableSizeV (24 + 16 + overheadPerRowPerIndexRamBytes * 3)
  | .idx256 => billableSizeV (24 + 32 + overheadPerRowPerIndexRamBytes * 3)
  | .idxDouble => billableSizeV (24 + 8 + overheadPerRowPerIndexRamBytes * 3)
  | .idxLongDouble => billableSizeV (24 + 16 + overheadPerRowPerIndexRamBytes * 3)

/-- `billable_size_v<generated_transaction_object>`. -/
def generatedTransactionObjectSize : Nat :=
  billableSizeV (96 + 4 + overheadPerRowPerIndexRamBytes * 5)

/-- `shared_authority::get_billable_size`, given the packed size of a key. -/
def Authority.getBillableSize {Key : Type} (packSize : Key → Nat) (auth : Authority Key) : Nat :=
  auth.accounts.length * billableSizeV 24 + auth.waits.length * billableSizeV 16 +
    (auth.keys.map fun k => billableSizeV 8 + packSize k.key).sum

/-! ## The database -/

/-- The tables of the state database. -/
structure Database (Key : Type) where
  accounts : Table AccountObject
  accountSequences : Table AccountSequenceObject
  permissions : Table (PermissionObject Key)
  permissionUsages : Table PermissionUsageObject
  links : Table PermissionLinkObject
  tables : Table TableIdObject
  keyValues : Table KeyValueObject
  indices : (k : IndexKind) → Table (IndexObject k)
  generated : Table GeneratedTransactionObject
  resources : ResourceDb

/-- Code over the database. -/
abbrev DbM (Key α : Type) := EStateM FcException (Database Key) α

namespace Database

variable {Key : Type}

/-- A database without rows. -/
def empty (config : ResourceLimitsConfig) (gmr : GmrParameters) : Database Key where
  accounts := .empty 0
  accountSequences := .empty 0
  permissions := .empty 0
  permissionUsages := .empty 0
  links := .empty 0
  tables := .empty 0
  keyValues := .empty 0
  indices _ := .empty 0
  generated := .empty 0
  resources :=
    { limits := .empty 0, usages := .empty 0, state := {}, config := config, gmr := gmr }

/-- Where the accounts are. -/
def accountsTable : TableOf (Database Key) AccountObject where
  table db := db.accounts
  set t db := { db with accounts := t }
  table_set _ _ := rfl

/-- Where the account sequences are. -/
def accountSequencesTable : TableOf (Database Key) AccountSequenceObject where
  table db := db.accountSequences
  set t db := { db with accountSequences := t }
  table_set _ _ := rfl

/-- Where the permissions are. -/
def permissionsTable : TableOf (Database Key) (PermissionObject Key) where
  table db := db.permissions
  set t db := { db with permissions := t }
  table_set _ _ := rfl

/-- Where the usages of permissions are. -/
def permissionUsagesTable : TableOf (Database Key) PermissionUsageObject where
  table db := db.permissionUsages
  set t db := { db with permissionUsages := t }
  table_set _ _ := rfl

/-- Where the permission links are. -/
def linksTable : TableOf (Database Key) PermissionLinkObject where
  table db := db.links
  set t db := { db with links := t }
  table_set _ _ := rfl

/-- Where the contract tables are. -/
def tablesTable : TableOf (Database Key) TableIdObject where
  table db := db.tables
  set t db := { db with tables := t }
  table_set _ _ := rfl

/-- Where the primary rows are. -/
def keyValuesTable : TableOf (Database Key) KeyValueObject where
  table db := db.keyValues
  set t db := { db with keyValues := t }
  table_set _ _ := rfl

/-- Where the rows of a secondary index are. -/
def indexTable (k : IndexKind) : TableOf (Database Key) (IndexObject k) where
  table db := db.indices k
  set t db := { db with indices := Function.update db.indices k t }
  table_set t db := Function.update_self k t db.indices

/-- Where the generated transactions are. -/
def generatedTable : TableOf (Database Key) GeneratedTransactionObject where
  table db := db.generated
  set t db := { db with generated := t }
  table_set _ _ := rfl

/-- Code of `resource_limits_manager`, run on the database. -/
def onResources {α : Type} (m : ResourceM α) : DbM Key α :=
  Exec.zoom Database.resources (fun r db => { db with resources := r }) m

/-- The account of a name. -/
def findAccount (db : Database Key) (name : AccountName) : Option (Nat × AccountObject) :=
  db.accounts.find? fun a => a.name = name

/-- The permission of an account, by its name. -/
def permissionOf (db : Database Key) (owner name : AccountName) :
    Option (Nat × PermissionObject Key) :=
  db.permissions.find? fun p => p.owner = owner && p.name = name

end Database

end Forceio.Chain
