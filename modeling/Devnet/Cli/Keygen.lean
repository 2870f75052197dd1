import Devnet.Crypto.Windows
import Devnet.Duties.GenesisPubkeys
import Devnet.Lib.WriteOnce

/-!
Offline key generation for a network. Each validator's secret goes to a file of its own, and the
public keys go to the manifest last. No file is overwritten, a step may fail anywhere and leave a
file cut short, and the command may be run again on what is left.
-/

set_option autoImplicit false

namespace Devnet.Cli
open Machine WriteOnce Devnet.Types Devnet.Protocol Devnet.Engine Devnet.Crypto Devnet.Duties

def lifetime : UInt64 := 4294967296
def sqrtLifetime : UInt64 := UInt64.ofNat lifetime.toNat.sqrt
def sharedKeysetActiveEpochs : UInt64 := sqrtLifetime <<< 2

structure KeygenParams where
  count : UInt64
  outDir : String
  manifestPath : String
  activationEpoch : UInt64

inductive WriteError where
  | createDirectory (parent : String)
  | openOutput (path : String)
  | writeOutput (path : String)
  | flushOutput (path : String)
  | setPermissions (path : String)
  deriving DecidableEq

inductive KeygenError where
  | countOutOfRange (count : UInt64)
  | misaligned (activationEpoch : UInt64)
  | outputExists (path : String)
  | generate (index : Nat) (source : CryptoError)
  | writeSecret (path : String) (source : WriteError)
  | writeManifest (path : String) (source : WriteError)
  deriving DecidableEq

def WriteError.message : WriteError → String
  | .createDirectory parent => "create output directory " ++ parent
  | .openOutput path =>
    "open output file " ++ path ++ " (already exists? delete it first to regenerate)"
  | .writeOutput path => "write output file " ++ path
  | .flushOutput path => "flush output file " ++ path
  | .setPermissions path => "set key output permissions on " ++ path

def KeygenError.message : KeygenError → String
  | .countOutOfRange count => "count must be between 1 and " ++ toString validatorRegistryLimit ++
      " (the validator-registry limit), got " ++ toString count
  | .misaligned activationEpoch => "activation-epoch " ++ toString activationEpoch ++
      " must be a multiple of the sqrt-lifetime boundary " ++ toString sqrtLifetime ++
      " (2^16); pick an aligned epoch"
  | .outputExists path => "output " ++ path ++
      " already exists; remove it (or the out-dir) to regenerate"
  | .generate index _ => "generate validator key " ++ toString index
  | .writeSecret path _ => "write validator secret " ++ path
  | .writeManifest path _ => "write manifest " ++ path

def KeygenParams.validate (self : KeygenParams) : Except KeygenError Unit :=
  if ¬ (1 ≤ self.count.toNat ∧ self.count.toNat ≤ validatorRegistryLimit) then
    .error (.countOutOfRange self.count)
  else if self.activationEpoch % sqrtLifetime ≠ 0 then .error (.misaligned self.activationEpoch)
  else .ok ()

/-- What may go wrong while a file is written; `write` says how many bytes were. -/
inductive WriteFault where
  | createDirectory
  | openOutput
  | write (written : Nat)
  | flush
  | setPermissions
  deriving DecidableEq

def parentOf (path : String) : String :=
  String.ofList ((path.toList.reverse.dropWhile (· ≠ '/')).drop 1).reverse

/-- A file that must not be there yet. Only `ownerOnly` files get permissions of their own. -/
def writeNewFile (ownerOnly : Bool) (fault : Option WriteFault) (path : String)
    (bytes : List UInt8) : EStateM WriteError Files Unit := fun files =>
  if parentOf path ≠ "" ∧ fault = some .createDirectory then
    .error (.createDirectory (parentOf path)) files
  else if (files path).isSome = true ∨ fault = some .openOutput then
    .error (.openOutput path) files
  else
    match fault with
    | some (.write written) => .error (.writeOutput path) (put files path (bytes.take written))
    | some .flush => .error (.flushOutput path) (put files path bytes)
    | some .setPermissions =>
      if ownerOnly = true then .error (.setPermissions path) (put files path bytes)
      else .ok () (put files path bytes)
    | _ => .ok () (put files path bytes)

/-- `"genesis_validators:\n"`, and for each scalar a line that starts with `"  - "`. -/
def manifestHeader : List UInt8 :=
  [103,101,110,101,115,105,115,95,118,97,108,105,100,97,116,111,114,115,58,10]

def manifestLine (scalar : List UInt8) : List UInt8 := [32,32,45,32] ++ scalar ++ [10]

def manifestText (scalars : List (List UInt8)) : List UInt8 :=
  manifestHeader ++ scalars.flatMap manifestLine

/-- No entry at all is written as an empty sequence, `"genesis_validators: []\n"`. -/
def serializeManifest (pubkeys : List PublicKey) : List UInt8 :=
  if pubkeys.isEmpty = true then manifestHeader.dropLast ++ [32,91,93,10]
  else manifestText (pubkeys.map fun pubkey => hexEncode pubkey.bytes)

structure KeygenFaults where
  secret : Nat → Option WriteFault
  manifest : Option WriteFault

structure Bench (R : Type) where
  rng : R
  files : Files

section
variable (S : SignatureScheme) {R : Type} (fillBytes : R → Bytes32 × R) (params : KeygenParams)
  (faults : KeygenFaults) (activation activeEpochs : UInt64)

def KeygenParams.secretPath (index : Nat) : String := validatorSecretPath params.outDir index

def keyRound (pubkeys : List PublicKey) (index : Nat) :
    EStateM KeygenError (Bench R) (List PublicKey) := fun bench =>
  let drawn := fillBytes bench.rng
  match generateFromSeed S drawn.1 activation activeEpochs with
  | .error e => .error (.generate index e) { bench with rng := drawn.2 }
  | .ok (pubkey,signingKey) =>
    let path := params.secretPath index
    match writeNewFile true (faults.secret index) path signingKey.toRecord.toSszBytes bench.files with
    | .error e files => .error (.writeSecret path e) ⟨drawn.2,files⟩
    | .ok _ files => .ok (pubkeys ++ [pubkey]) ⟨drawn.2,files⟩

def keyLoop (pubkeys : List PublicKey) : List Nat → EStateM KeygenError (Bench R) (List PublicKey)
  | [] => pure pubkeys
  | index :: rest => do
    let pubkeys ← keyRound S fillBytes params faults activation activeEpochs pubkeys index
    keyLoop pubkeys rest

def writeManifest (pubkeys : List PublicKey) :
    EStateM KeygenError (Bench R) (List PublicKey) := fun bench =>
  match writeNewFile false faults.manifest params.manifestPath (serializeManifest pubkeys)
      bench.files with
  | .error e files => .error (.writeManifest params.manifestPath e) { bench with files := files }
  | .ok _ files => .ok pubkeys { bench with files := files }

def KeygenParams.indices : List Nat := List.range params.count.toNat

/-- The outputs that are already there: the manifest is looked for first, then the secrets. -/
def KeygenParams.existing (files : Files) : Option String :=
  (params.manifestPath :: params.indices.map params.secretPath).find? fun path =>
    (files path).isSome

def generateValidatorKeys : EStateM KeygenError (Bench R) (List PublicKey) := do
  check params.validate
  let bench ← get
  match params.existing bench.files with
  | some path => throw (.outputExists path)
  | none => do
    let pubkeys ← keyLoop S fillBytes params faults params.activationEpoch sharedKeysetActiveEpochs
      [] params.indices
    writeManifest params faults pubkeys

end

section
variable {S : SignatureScheme} {R : Type} {fillBytes : R → Bytes32 × R} {params : KeygenParams}
  {faults : KeygenFaults} {activation activeEpochs : UInt64}

variable (S activation activeEpochs) in
structure NewKey where
  seed : Bytes32
  pubkey : PublicKey
  key : SigningKey S
  made : generateFromSeed S seed activation activeEpochs = .ok (pubkey,key)

def NewKey.record (self : NewKey S activation activeEpochs) : List UInt8 :=
  self.key.toRecord.toSszBytes

abbrev KeygenParams.Key (params : KeygenParams) (S : SignatureScheme) : Type :=
  NewKey S params.activationEpoch sharedKeysetActiveEpochs

variable (params) in
def secretWrites (first : Nat) (keys : List (NewKey S activation activeEpochs)) :
    List (String × List UInt8) :=
  keys.mapIdx fun i key => (params.secretPath (first+i),key.record)

variable (params) in
def outputs (keys : List (NewKey S activation activeEpochs)) : List (String × List UInt8) :=
  secretWrites params 0 keys ++ [(params.manifestPath,serializeManifest (keys.map NewKey.pubkey))]

variable (S params activation activeEpochs) in
inductive Partly (next : Nat) : List (String × List UInt8) → Prop where
  | between : Partly next []
  | within (key : NewKey S activation activeEpochs) (written : Nat) :
      Partly next [(params.secretPath next,key.record.take written)]

variable (S params) in
/-- What a run may have written by its end. -/
inductive Leaves : List (String × List UInt8) → Prop where
  | secrets {keys : List (params.Key S)} {rest : List (String × List UInt8)}
      (short : keys.length < params.count.toNat)
      (cut : Partly S params params.activationEpoch sharedKeysetActiveEpochs keys.length rest) :
      Leaves (secretWrites params 0 keys ++ rest)
  | unlisted {keys : List (params.Key S)} (all : keys.length = params.count.toNat) :
      Leaves (secretWrites params 0 keys)
  | listed {keys : List (params.Key S)} (all : keys.length = params.count.toNat) (written : Nat) :
      Leaves (secretWrites params 0 keys ++
        [(params.manifestPath,(serializeManifest (keys.map NewKey.pubkey)).take written)])

theorem writeNewFile_cases (ownerOnly : Bool) (fault : Option WriteFault) (path : String)
    (bytes : List UInt8) (files : Files) :
    (∃ e, writeNewFile ownerOnly fault path bytes files = .error e files) ∨
    files path = none ∧
      ((∃ e written, writeNewFile ownerOnly fault path bytes files =
        .error e (put files path (bytes.take written))) ∨
      writeNewFile ownerOnly fault path bytes files = .ok () (put files path bytes)) := by
  unfold writeNewFile
  by_cases hparent : parentOf path ≠ "" ∧ fault = some .createDirectory
  · rw [if_pos hparent]
    exact .inl ⟨_,rfl⟩
  by_cases hopen : (files path).isSome = true ∨ fault = some .openOutput
  · rw [if_neg hparent,if_pos hopen]
    exact .inl ⟨_,rfl⟩
  rw [if_neg hparent,if_neg hopen]
  refine .inr ⟨by simpa using (not_or.mp hopen).1,?_⟩
  have hall : bytes.take bytes.length = bytes := List.take_length
  split
  · exact .inl ⟨_,_,rfl⟩
  · exact .inl ⟨_,bytes.length,by rw [hall]⟩
  · split
    · exact .inl ⟨_,bytes.length,by rw [hall]⟩
    · exact .inr rfl
  · exact .inr rfl

theorem keyRound_cases (pubkeys : List PublicKey) (index : Nat) (bench : Bench R) :
    (∃ e t, keyRound S fillBytes params faults activation activeEpochs pubkeys index bench = .error e t ∧
      ∃ rest, Partly S params activation activeEpochs index rest ∧ Lays bench.files rest t.files) ∨
    ∃ (key : NewKey S activation activeEpochs) (t : Bench R),
      keyRound S fillBytes params faults activation activeEpochs pubkeys index bench = .ok (pubkeys ++ [key.pubkey]) t ∧
      Lays bench.files [(params.secretPath index,key.record)] t.files := by
  cases hmade : generateFromSeed S (fillBytes bench.rng).1 activation activeEpochs with
  | error e =>
    simp only [keyRound,hmade]
    exact .inl ⟨_,_,rfl,[],.between,.nil⟩
  | ok made =>
    obtain ⟨pubkey,signingKey⟩ := made
    let key : NewKey S activation activeEpochs := ⟨_,pubkey,signingKey,hmade⟩
    rcases writeNewFile_cases true (faults.secret index) (params.secretPath index)
      signingKey.toRecord.toSszBytes bench.files with
      ⟨e,hwrite⟩ | ⟨hfree,⟨e,written,hwrite⟩ | hwrite⟩
    all_goals simp only [keyRound,hmade,hwrite]
    · exact .inl ⟨_,_,rfl,[],.between,.nil⟩
    · exact .inl ⟨_,_,rfl,_,.within key written,.single hfree⟩
    · exact .inr ⟨key,_,rfl,.single hfree⟩

theorem secretWrites_cons (first : Nat) (key : NewKey S activation activeEpochs) (keys : List (NewKey S activation activeEpochs)) :
    secretWrites params first (key :: keys) =
      (params.secretPath first,key.record) :: secretWrites params (first+1) keys := by
  simp only [secretWrites,List.mapIdx_cons,Nat.add_zero,Nat.add_assoc,Nat.add_comm 1]

theorem path_of_mem_secretWrites {keys : List (NewKey S activation activeEpochs)}
    {write : String × List UInt8} (h : write ∈ secretWrites params 0 keys) :
    ∃ index < keys.length, write.1 = params.secretPath index := by
  obtain ⟨index,hindex,rfl⟩ := List.mem_mapIdx.mp h
  exact ⟨index,hindex,by rw [Nat.zero_add]⟩

theorem mem_secretWrites {keys : List (NewKey S activation activeEpochs)} {index : Nat}
    {key : NewKey S activation activeEpochs} (h : keys[index]? = some key) :
    (params.secretPath index,key.record) ∈ secretWrites params 0 keys := by
  obtain ⟨hlt,rfl⟩ := List.getElem?_eq_some_iff.mp h
  exact List.mem_mapIdx.mpr ⟨index,hlt,by rw [Nat.zero_add]⟩

theorem keyLoop_cases (count first : Nat) (pubkeys : List PublicKey) (bench : Bench R) :
    (∃ e t, keyLoop S fillBytes params faults activation activeEpochs pubkeys (List.range' first count) bench = .error e t ∧
      ∃ (keys : List (NewKey S activation activeEpochs)) (rest : List (String × List UInt8)),
        keys.length < count ∧ Partly S params activation activeEpochs (first+keys.length) rest ∧
        Lays bench.files (secretWrites params first keys ++ rest) t.files) ∨
    ∃ (keys : List (NewKey S activation activeEpochs)) (t : Bench R), keys.length = count ∧
      keyLoop S fillBytes params faults activation activeEpochs pubkeys (List.range' first count) bench =
        .ok (pubkeys ++ keys.map NewKey.pubkey) t ∧
      Lays bench.files (secretWrites params first keys) t.files := by
  induction count generalizing first pubkeys bench with
  | zero => exact .inr ⟨[],bench,rfl,by simp [keyLoop,pure,EStateM.pure],.nil⟩
  | succ count ih =>
    rw [List.range'_succ,keyLoop]
    rcases keyRound_cases pubkeys first bench with ⟨e,t,hround,rest,hcut,hlays⟩ | ⟨key,m,hround,hlays⟩
    · refine .inl ⟨e,t,estate_bind_error.mpr (.inl hround),[],rest,Nat.succ_pos _,hcut,hlays⟩
    · rw [estate_bind_of_ok hround]
      rcases ih (first+1) (pubkeys ++ [key.pubkey]) m with
        ⟨e,t,hloop,keys,rest,hshort,hcut,hrest⟩ | ⟨keys,t,hall,hloop,hrest⟩
      · refine .inl ⟨e,t,hloop,key :: keys,rest,Nat.succ_lt_succ hshort,?_,?_⟩
        · rwa [List.length_cons,Nat.add_comm keys.length,← Nat.add_assoc]
        · rw [secretWrites_cons]
          exact hlays.append hrest
      · refine .inr ⟨key :: keys,t,congrArg Nat.succ hall,?_,?_⟩
        · rw [hloop,List.append_assoc]
          rfl
        · rw [secretWrites_cons]
          exact hlays.append hrest

theorem writeManifest_cases (pubkeys : List PublicKey) (bench : Bench R) :
    (∃ e t, writeManifest params faults pubkeys bench = .error e t ∧
      (t.files = bench.files ∨ ∃ written, Lays bench.files
        [(params.manifestPath,(serializeManifest pubkeys).take written)] t.files)) ∨
    ∃ t, writeManifest params faults pubkeys bench = .ok pubkeys t ∧
      Lays bench.files [(params.manifestPath,serializeManifest pubkeys)] t.files := by
  rcases writeNewFile_cases false faults.manifest params.manifestPath (serializeManifest pubkeys)
    bench.files with ⟨e,hwrite⟩ | ⟨hfree,⟨e,written,hwrite⟩ | hwrite⟩
  all_goals simp only [writeManifest,hwrite]
  · exact .inl ⟨_,_,rfl,.inl rfl⟩
  · exact .inl ⟨_,_,rfl,.inr ⟨written,.single hfree⟩⟩
  · exact .inr ⟨_,rfl,.single hfree⟩

variable (S fillBytes params faults) in
/-- A run is refused at once, or it leaves a part of its outputs; all of them if it succeeds. -/
theorem generateValidatorKeys_cases (bench : Bench R) :
    (∃ e, generateValidatorKeys S fillBytes params faults bench = .error e bench) ∨
    params.validate = .ok () ∧ ∃ t : Bench R,
      ((∃ e, generateValidatorKeys S fillBytes params faults bench = .error e t ∧
        ∃ writes, Leaves S params writes ∧ Lays bench.files writes t.files) ∨
      ∃ keys : List (params.Key S), keys.length = params.count.toNat ∧
        generateValidatorKeys S fillBytes params faults bench =
          .ok (keys.map NewKey.pubkey) t ∧ Lays bench.files (outputs params keys) t.files) := by
  unfold generateValidatorKeys
  cases hvalid : params.validate with
  | error e => exact .inl ⟨e,estate_bind_error.mpr (.inl (check_error.mpr ⟨rfl,rfl⟩))⟩
  | ok u =>
    rw [estate_bind_of_ok (check_ok.mpr ⟨rfl,rfl⟩),estate_get_bind]
    cases hexisting : params.existing bench.files with
    | some path => exact .inl ⟨_,rfl⟩
    | none =>
      refine .inr ⟨rfl,?_⟩
      rw [KeygenParams.indices,List.range_eq_range']
      rcases keyLoop_cases params.count.toNat 0 [] bench with
        ⟨e,t,hloop,keys,rest,hshort,hcut,hlays⟩ | ⟨keys,m,hall,hloop,hlays⟩
      · rw [Nat.zero_add] at hcut
        exact ⟨t,.inl ⟨e,estate_bind_error.mpr (.inl hloop),_,.secrets hshort hcut,hlays⟩⟩
      · rw [List.nil_append] at hloop
        rcases writeManifest_cases (keys.map NewKey.pubkey) m with
          ⟨e,t,hwrite,hnone | ⟨written,hpart⟩⟩ | ⟨t,hwrite,hlisted⟩
        · refine ⟨t,.inl ⟨e,(estate_bind_of_ok hloop).trans hwrite,_,.unlisted hall,?_⟩⟩
          rwa [hnone]
        · exact ⟨t,.inl ⟨e,(estate_bind_of_ok hloop).trans hwrite,_,.listed hall written,
            hlays.append hpart⟩⟩
        · exact ⟨t,.inr ⟨keys,hall,(estate_bind_of_ok hloop).trans hwrite,hlays.append hlisted⟩⟩

theorem Leaves.path {writes : List (String × List UInt8)} (h : Leaves S params writes)
    {write : String × List UInt8} (hwrite : write ∈ writes) :
    write.1 ∈ params.manifestPath :: params.indices.map params.secretPath := by
  have hsecret : ∀ {index : Nat}, index < params.count.toNat →
      params.secretPath index ∈ params.manifestPath :: params.indices.map params.secretPath :=
    fun hlt => List.mem_cons_of_mem _ (List.mem_map_of_mem (List.mem_range.mpr hlt))
  have hsecrets : ∀ {keys : List (params.Key S)}, keys.length ≤ params.count.toNat →
      write ∈ secretWrites params 0 keys →
      write.1 ∈ params.manifestPath :: params.indices.map params.secretPath := by
    intro keys hle hmem
    obtain ⟨index,hindex,hpath⟩ := path_of_mem_secretWrites hmem
    exact hpath ▸ hsecret (hindex.trans_le hle)
  cases h with
  | secrets short cut =>
    rcases List.mem_append.mp hwrite with hmem | hmem
    · exact hsecrets short.le hmem
    · cases cut with
      | between => cases hmem
      | within key written =>
        rw [List.mem_singleton.mp hmem]
        exact hsecret short
  | unlisted all => exact hsecrets all.le hwrite
  | listed all written =>
    rcases List.mem_append.mp hwrite with hmem | hmem
    · exact hsecrets all.le hmem
    · rw [List.mem_singleton.mp hmem]
      exact List.mem_cons_self

theorem leaves_outputs {keys : List (params.Key S)} (h : keys.length = params.count.toNat) :
    Leaves S params (outputs params keys) := by
  have hlisted := Leaves.listed h (serializeManifest (keys.map NewKey.pubkey)).length
  rwa [List.take_length] at hlisted

variable (S fillBytes params) in
def attempt (rng : R) (faults : KeygenFaults) (files : Files) :
    Except KeygenError (List PublicKey) × Files :=
  (returned (generateValidatorKeys S fillBytes params faults) ⟨rng,files⟩,
    (after (generateValidatorKeys S fillBytes params faults) ⟨rng,files⟩).files)

variable (S fillBytes params) in
def Attempts (files : Files) (run : R × KeygenFaults)
    (out : Except KeygenError (List PublicKey)) (t : Files) : Prop :=
  attempt S fillBytes params run.1 run.2 files = (out,t)

theorem attempt_refused {files t : Files} {writes : List (String × List UInt8)}
    (hvalid : params.validate = .ok ()) (hleaves : Leaves S params writes)
    (hlays : Lays files writes t) (hsome : writes ≠ []) (rng : R) (faults : KeygenFaults) :
    ∃ path, attempt S fillBytes params rng faults t = (.error (.outputExists path),t) := by
  obtain ⟨write,hwrite⟩ := List.exists_mem_of_ne_nil writes hsome
  have hthere : (params.existing t).isSome = true := by
    refine List.find?_isSome.mpr ⟨write.1,hleaves.path hwrite,?_⟩
    rw [(hlays.written hwrite).2]
    rfl
  obtain ⟨path,hpath⟩ := Option.isSome_iff_exists.mp hthere
  have hrun : generateValidatorKeys S fillBytes params faults ⟨rng,t⟩ =
      .error (.outputExists path) ⟨rng,t⟩ := by
    unfold generateValidatorKeys
    rw [estate_bind_of_ok (check_ok.mpr ⟨hvalid,rfl⟩),estate_get_bind]
    dsimp only
    rw [hpath]
    rfl
  exact ⟨path,by rw [attempt,returned,after,hrun]⟩

def successes (results : List (Except KeygenError (List PublicKey))) : List (List PublicKey) :=
  results.filterMap Except.toOption

theorem successes_append (results : List (Except KeygenError (List PublicKey)))
    (out : Except KeygenError (List PublicKey)) :
    successes (results ++ [out]) = successes results ++ out.toOption.toList := by
  cases out <;> simp [successes,Except.toOption]

variable (S fillBytes params) in
/-- The first attempt that wrote anything, and what it returned. -/
structure Settled (files : Files) (runs : List (R × KeygenFaults))
    (results : List (Except KeygenError (List PublicKey))) (t : Files) : Prop where
  valid : params.validate = .ok ()
  by_one : ∃ run ∈ runs, t = (attempt S fillBytes params run.1 run.2 files).2
  left : ∃ writes, writes ≠ [] ∧ Leaves S params writes ∧ Lays files writes t
  once : (successes results).length ≤ 1
  listed : ∀ pubkeys ∈ successes results, ∃ keys : List (params.Key S),
    keys.length = params.count.toNat ∧ keys.map NewKey.pubkey = pubkeys ∧
      Lays files (outputs params keys) t

theorem outputs_ne_nil (keys : List (params.Key S)) : outputs params keys ≠ [] := by
  simp [outputs]

theorem attempt_cases (rng : R) (faults : KeygenFaults) (files : Files) :
    (∃ e, attempt S fillBytes params rng faults files = (.error e,files)) ∨
    params.validate = .ok () ∧ ∃ writes t, writes ≠ [] ∧ Leaves S params writes ∧
      Lays files writes t ∧
      ((∃ e, attempt S fillBytes params rng faults files = (.error e,t)) ∨
      ∃ keys : List (params.Key S), keys.length = params.count.toNat ∧ writes = outputs params keys ∧
        attempt S fillBytes params rng faults files = (.ok (keys.map NewKey.pubkey),t)) := by
  rcases generateValidatorKeys_cases S fillBytes params faults ⟨rng,files⟩ with
    ⟨e,hcall⟩ | ⟨hvalid,t,⟨e,hcall,writes,hleaves,hlays⟩ | ⟨keys,hall,hcall,hlays⟩⟩
  all_goals simp only [attempt,returned,after,hcall]
  · exact .inl ⟨e,rfl⟩
  · cases writes with
    | nil =>
      obtain rfl : t.files = files := funext fun key => hlays.other (by simp)
      exact .inl ⟨e,rfl⟩
    | cons write rest =>
      exact .inr ⟨hvalid,_,_,List.cons_ne_nil _ _,hleaves,hlays,.inl ⟨e,rfl⟩⟩
  · exact .inr ⟨hvalid,_,_,outputs_ne_nil keys,leaves_outputs hall,hlays,.inr ⟨keys,hall,rfl,rfl⟩⟩

theorem attempts_settle {files t : Files} {runs : List (R × KeygenFaults)}
    {results : List (Except KeygenError (List PublicKey))}
    (hrun : Run (Attempts S fillBytes params) files runs results t) :
    t = files ∧ successes results = [] ∨ Settled S fillBytes params files runs results t := by
  refine hrun.invariant (fun runs results t => t = files ∧ successes results = [] ∨
    Settled S fillBytes params files runs results t) (.inl ⟨rfl,rfl⟩) ?_
  rintro runs results m ⟨rng,faults⟩ out t _ hm hstep
  have hcall : attempt S fillBytes params rng faults m = (out,t) := hstep
  rcases hm with ⟨rfl,hnone⟩ | hsettled
  · -- Nothing is written yet: this is the attempt that counts if it writes.
    have hby : ∃ run ∈ runs ++ [(rng,faults)], t = (attempt S fillBytes params run.1 run.2 m).2 :=
      ⟨(rng,faults),List.mem_append_right _ (List.mem_singleton_self _),by rw [hcall]⟩
    have hfirst : successes (results ++ [out]) = out.toOption.toList := by
      rw [successes_append,hnone,List.nil_append]
    rcases attempt_cases rng faults m with
      ⟨e,hsame⟩ | ⟨hvalid,writes,t',hsome,hleaves,hlays,⟨e,hfailed⟩ | ⟨keys,hall,rfl,hdone⟩⟩
    · obtain ⟨rfl,rfl⟩ := Prod.mk.inj (hcall.symm.trans hsame)
      exact .inl ⟨rfl,hfirst⟩
    · obtain ⟨rfl,rfl⟩ := Prod.mk.inj (hcall.symm.trans hfailed)
      exact .inr ⟨hvalid,hby,⟨writes,hsome,hleaves,hlays⟩,by simp [hfirst,Except.toOption],
        by simp [hfirst,Except.toOption]⟩
    · obtain ⟨rfl,rfl⟩ := Prod.mk.inj (hcall.symm.trans hdone)
      refine .inr ⟨hvalid,hby,⟨_,hsome,hleaves,hlays⟩,by simp [hfirst,Except.toOption],?_⟩
      intro pubkeys hmem
      obtain rfl : pubkeys = keys.map NewKey.pubkey := by simpa [hfirst,Except.toOption] using hmem
      exact ⟨keys,hall,rfl,hlays⟩
  · obtain ⟨writes,hsome,hleaves,hlays⟩ := hsettled.left
    obtain ⟨path,hrefused⟩ := attempt_refused hsettled.valid hleaves hlays hsome rng faults
    obtain ⟨rfl,rfl⟩ := Prod.mk.inj (hcall.symm.trans hrefused)
    obtain ⟨run,hrun,hby⟩ := hsettled.by_one
    have hsame : successes (results ++ [.error (.outputExists path)]) = successes results := by
      simp [successes_append,Except.toOption]
    refine .inr ⟨hsettled.valid,⟨run,List.mem_append_left _ hrun,hby⟩,hsettled.left,?_,?_⟩
    · rw [hsame]
      exact hsettled.once
    · rw [hsame]
      exact hsettled.listed

theorem Leaves.complete {files t : Files} {writes : List (String × List UInt8)}
    (h : Leaves S params writes) (hlays : Lays files writes t)
    (hapart : ∀ index < params.count.toNat, params.secretPath index ≠ params.manifestPath)
    (hbefore : files params.manifestPath = none) (hafter : t params.manifestPath ≠ none) :
    ∃ keys : List (params.Key S), keys.length = params.count.toNat ∧
      (∀ index key, keys[index]? = some key → t (params.secretPath index) = some key.record) ∧
      ∃ written, t params.manifestPath =
        some ((serializeManifest (keys.map NewKey.pubkey)).take written) := by
  have hsecrets : ∀ {keys : List (params.Key S)}, keys.length ≤ params.count.toNat →
      ∀ write ∈ secretWrites params 0 keys, write.1 ≠ params.manifestPath := by
    intro keys hle write hmem
    obtain ⟨index,hindex,hpath⟩ := path_of_mem_secretWrites hmem
    exact hpath ▸ hapart index (hindex.trans_le hle)
  cases h with
  | secrets short cut =>
    refine absurd ((hlays.other fun write hmem => ?_).trans hbefore) hafter
    rcases List.mem_append.mp hmem with hmem | hmem
    · exact hsecrets short.le write hmem
    · cases cut with
      | between => cases hmem
      | within key written =>
        rw [List.mem_singleton.mp hmem]
        exact hapart _ short
  | unlisted all => exact absurd ((hlays.other (hsecrets all.le)).trans hbefore) hafter
  | @listed keys all written =>
    refine ⟨keys,all,fun index key hkey => ?_,written,
      (hlays.written (List.mem_append_right _ (List.mem_singleton_self _))).2⟩
    exact (hlays.written (List.mem_append_left _ (mem_secretWrites hkey))).2

/-- However often the command is run on the same paths and wherever each run fails: no file that
was there is touched, the disk is what a single run made of it, at most one run succeeds, and if
the manifest appears then so has, before it and in full, every secret whose public key it lists. -/
theorem keygen_attempts {files t : Files} {runs : List (R × KeygenFaults)}
    {results : List (Except KeygenError (List PublicKey))}
    (hrun : Run (Attempts S fillBytes params) files runs results t) :
    (∀ path bytes, files path = some bytes → t path = some bytes) ∧
    (t = files ∨ ∃ run ∈ runs, t = (attempt S fillBytes params run.1 run.2 files).2) ∧
    (successes results).length ≤ 1 ∧
    (∀ pubkeys ∈ successes results, ∃ keys : List (params.Key S),
      keys.length = params.count.toNat ∧ keys.map NewKey.pubkey = pubkeys ∧
      Lays files (outputs params keys) t) ∧
    ((∀ index < params.count.toNat, params.secretPath index ≠ params.manifestPath) →
      files params.manifestPath = none → t params.manifestPath ≠ none →
      ∃ keys : List (params.Key S), keys.length = params.count.toNat ∧
        (∀ index key, keys[index]? = some key → t (params.secretPath index) = some key.record) ∧
        ∃ written, t params.manifestPath =
          some ((serializeManifest (keys.map NewKey.pubkey)).take written)) := by
  rcases attempts_settle hrun with ⟨rfl,hnone⟩ | hsettled
  · exact ⟨fun _ _ h => h,.inl rfl,by simp [hnone],by simp [hnone],
      fun _ hbefore hafter => absurd hbefore hafter⟩
  · obtain ⟨writes,-,hleaves,hlays⟩ := hsettled.left
    exact ⟨fun _ _ => hlays.keeps,.inr hsettled.by_one,hsettled.once,hsettled.listed,
      hleaves.complete hlays⟩

end

section

structure PlainKey where
  start : UInt64
  end_ : UInt64
  ordered : start.toNat ≤ end_.toNat

theorem end_fits {start count : UInt64} (h : start.toNat+count.toNat ≤ lifetime.toNat) :
    (start+count).toNat = start.toNat+count.toNat := by
  have hlife : lifetime.toNat < 2^64 := lifetime.toNat_lt
  rw [UInt64.toNat_add]
  exact Nat.mod_eq_of_lt (by omega)

theorem plain_ordered {start count : UInt64} (h : start.toNat+count.toNat ≤ lifetime.toNat) :
    start.toNat ≤ (start+count).toNat := by
  rw [end_fits h]
  exact Nat.le_add_right _ _

def PlainKey.over (start count : UInt64) : PlainKey :=
  if h : start.toNat+count.toNat ≤ lifetime.toNat then ⟨start,start+count,plain_ordered h⟩
  else ⟨start,start,le_rfl⟩

def plainScheme (signature : List UInt8) : SignatureScheme where
  SecretKey := PlainKey
  lifetime := lifetime
  payloadLen := signature.length
  keyGen seed start count := (seed.bytes ++ List.replicate 20 0,PlainKey.over start count)
  activationInterval secret := ⟨secret.start,secret.end_⟩
  preparedInterval secret := ⟨secret.start,secret.end_⟩
  advancePreparation secret := secret
  sign _ _ _ := some signature
  keeps _ := rfl
  moves _ := .inl rfl
  inside secret := secret.ordered

theorem length_counted (n : Nat) : (UInt8.ofNat n :: List.replicate 31 0).length = 32 := by simp

def countUp (n : Nat) : Bytes32 × Nat := (⟨_,length_counted n⟩,n+1)

def pairParams : KeygenParams := ⟨2,"/keys","/genesis_validators.yaml",0⟩

def noFiles : Files := fun _ => none

def pairAttempts : List (Nat × KeygenFaults) :=
  [(0,⟨fun _ => some .createDirectory,none⟩),(0,⟨fun _ => none,none⟩),(5,⟨fun _ => none,none⟩)]

def pairRuns : List (Except KeygenError (List PublicKey)) × Files :=
  trace (fun run files => attempt (plainScheme []) countUp pairParams run.1 run.2 files)
    pairAttempts noFiles

theorem keygen_attempts_pair : (successes pairRuns.1).length = 1 ∧
    (∃ run ∈ pairAttempts, pairRuns.2 =
      (attempt (plainScheme []) countUp pairParams run.1 run.2 noFiles).2) ∧
    ∃ keys : List (pairParams.Key (plainScheme [])), keys.length = 2 ∧
      ∀ index key, keys[index]? = some key →
        pairRuns.2 (pairParams.secretPath index) = some key.record := by
  have hrun : Run (Attempts (plainScheme []) countUp pairParams) noFiles pairAttempts pairRuns.1
      pairRuns.2 := run_trace _ _ _
  obtain ⟨-,hone,-,-,hsecrets⟩ := keygen_attempts hrun
  have hlisted : pairRuns.2 pairParams.manifestPath ≠ none := by decide +kernel
  have hapart : ∀ index < pairParams.count.toNat,
      pairParams.secretPath index ≠ pairParams.manifestPath := by decide +kernel
  obtain ⟨keys,hall,hthere,-⟩ := hsecrets hapart rfl hlisted
  refine ⟨by decide +kernel,hone.resolve_left fun hsame => hlisted ?_,keys,hall,hthere⟩
  rw [hsame]
  rfl

end

end Devnet.Cli
