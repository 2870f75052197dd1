import Devnet.Duties.Signer
import Devnet.Node.Assignments
import Devnet.Types.Hex

/-!
The genesis registry as it is read from the manifest: a YAML sequence with the public key of each
validator in hex, in the order of the indices. The YAML reader is a parameter.
-/

set_option autoImplicit false

namespace Devnet.Duties
open Machine Devnet.Types Devnet.Protocol Devnet.Node

def maxValidatorsFileBytes : Nat := 2^20

/-- The variants of `DutiesError` that reading the manifest raises. -/
inductive RegistryError where
  | yamlRead (path source : String)
  | validatorsFileTooLarge (size cap : Nat)
  | manifestContainsYamlAlias (path : String)
  | yamlParse (path source : String)
  | validatorPubkeyCountMismatch (expected got : UInt64)
  | invalidValidatorPubkey (index : Nat) (source : HexError)
  deriving DecidableEq

def RegistryError.message : RegistryError → String
  | .yamlRead path source => "duties YAML read " ++ path.quote ++ ": " ++ source
  | .validatorsFileTooLarge size cap => "duties validators file is " ++ toString size ++
      " bytes, exceeds cap of " ++ toString cap ++ " bytes"
  | .manifestContainsYamlAlias path => "genesis_validators manifest " ++ path.quote ++
      " must not contain YAML anchors or aliases"
  | .yamlParse path source => "duties YAML parse error in " ++ path.quote ++ ": " ++ source
  | .validatorPubkeyCountMismatch expected got => "genesis_validators manifest has " ++
      toString got ++ " pubkeys, expected " ++ toString expected ++ " (one per validator)"
  | .invalidValidatorPubkey index source => "genesis_validators pubkey at index " ++
      toString index ++ " is invalid: " ++ source.message

/-- `serde_yaml::from_slice` for a mapping whose `genesis_validators` is a sequence of strings. -/
class Yaml where
  rawManifest : List UInt8 → Except String (List (List UInt8))

/-- One byte more than the cap is read at most. -/
def readCapped (files : Files) (path : String) : Except RegistryError (List UInt8) :=
  match files path with
  | none => .error (.yamlRead path "No such file or directory (os error 2)")
  | some content =>
    let bytes := content.take (maxValidatorsFileBytes+1)
    if maxValidatorsFileBytes < bytes.length then
      .error (.validatorsFileTooLarge bytes.length maxValidatorsFileBytes)
    else .ok bytes

def rejectYamlAliases (bytes : List UInt8) (path : String) : Except RegistryError Unit :=
  if bytes.any (fun byte => byte == 38 || byte == 42) = true then
    .error (.manifestContainsYamlAlias path)
  else .ok ()

def resolvePath (crateRoot raw : String) : String :=
  if raw.toList.head? = some '/' then raw else crateRoot ++ "/" ++ raw

def decodePubkeys : Nat → List (List UInt8) → Except RegistryError Validators
  | _, [] => .ok []
  | position, hex :: rest => do
    let pubkey ← (ByteVector.tryFromHex 52 hex).mapError (.invalidValidatorPubkey position)
    let validators ← decodePubkeys (position+1) rest
    .ok (⟨pubkey,validatorIndex (UInt64.ofNat position)⟩ :: validators)

def fromPubkeyHexes (expected : UInt64) (hexes : List (List UInt8)) :
    Except RegistryError Validators :=
  let got := UInt64.ofNat hexes.length
  if got ≠ expected then .error (.validatorPubkeyCountMismatch expected got)
  else decodePubkeys 0 hexes

/-- `GenesisRegistry::load`, down to the validators. -/
def loadGenesisRegistry [Yaml] (files : Files) (crateRoot : String)
    (assignments : ValidatorAssignments) (manifestPath : String) :
    Except RegistryError Validators := do
  let resolved := resolvePath crateRoot manifestPath
  let bytes ← readCapped files resolved
  rejectYamlAliases bytes resolved
  let raw ← (Yaml.rawManifest bytes).mapError (.yamlParse resolved)
  fromPubkeyHexes assignments.totalValidators raw

def registryOf (pubkeys : List PublicKey) : Validators :=
  pubkeys.mapIdx fun position pubkey => ⟨pubkey,validatorIndex (UInt64.ofNat position)⟩

theorem pubkeys_registryOf (pubkeys : List PublicKey) :
    (registryOf pubkeys).map Validator.pubkey = pubkeys := by
  refine List.ext_getElem? fun position => ?_
  rw [registryOf,List.getElem?_map,List.getElem?_mapIdx,Option.map_map]
  exact congrFun Option.map_id _

theorem decodePubkeys_hexEncode (pubkeys : List PublicKey) (position : Nat) :
    decodePubkeys position (pubkeys.map fun pubkey => hexEncode pubkey.bytes) =
      .ok (pubkeys.mapIdx fun i pubkey =>
        ⟨pubkey,validatorIndex (UInt64.ofNat (position+i))⟩) := by
  induction pubkeys generalizing position with
  | nil => rfl
  | cons pubkey rest ih =>
    rw [List.map_cons,decodePubkeys,(tryFromHex_hexEncode pubkey).1,ih,List.mapIdx_cons]
    simp only [Nat.add_zero,Nat.add_assoc,Nat.add_comm 1]
    rfl

theorem loadGenesisRegistry_of [Yaml] {files : Files} {crateRoot manifestPath : String}
    {assignments : ValidatorAssignments} {text : List UInt8} {pubkeys : List PublicKey}
    (habsolute : manifestPath.toList.head? = some '/') (hfile : files manifestPath = some text)
    (hlength : text.length ≤ maxValidatorsFileBytes) (haliases : 38 ∉ text ∧ 42 ∉ text)
    (hyaml : Yaml.rawManifest text = .ok (pubkeys.map fun pubkey => hexEncode pubkey.bytes))
    (htotal : assignments.totalValidators = UInt64.ofNat pubkeys.length) :
    loadGenesisRegistry files crateRoot assignments manifestPath = .ok (registryOf pubkeys) := by
  have hread : readCapped files manifestPath = .ok text := by
    have htaken : text.take (maxValidatorsFileBytes+1) = text :=
      List.take_of_length_le (hlength.trans (Nat.le_succ _))
    simp only [readCapped,hfile,htaken,if_neg (Nat.not_lt.mpr hlength)]
  have hplain : rejectYamlAliases text manifestPath = .ok () := by
    refine if_neg fun hany => ?_
    obtain ⟨byte,hbyte,halias⟩ := List.any_eq_true.mp hany
    rw [Bool.or_eq_true,beq_iff_eq,beq_iff_eq] at halias
    rcases halias with rfl | rfl
    · exact haliases.1 hbyte
    · exact haliases.2 hbyte
  have hcount : ¬ UInt64.ofNat (pubkeys.map fun pubkey => hexEncode pubkey.bytes).length ≠
      assignments.totalValidators := by
    rw [List.length_map,htotal]
    exact not_not.mpr rfl
  have hdecode := decodePubkeys_hexEncode pubkeys 0
  simp only [Nat.zero_add] at hdecode
  simp only [loadGenesisRegistry,resolvePath,if_pos habsolute,except_bind_ok,mapError_ok]
  exact ⟨text,hread,(),hplain,_,hyaml,(if_neg hcount).trans hdecode⟩

end Devnet.Duties
