import Devnet.Lib.Tables
import Devnet.Protocol.Header

/-!
Vote processing. The tally is kept on the state as sorted roots beside one flat bit
list; a batch works on a table with one row per root and writes it back at the end.
-/

set_option autoImplicit false

namespace Devnet.Protocol
open Machine Devnet.Types Devnet.Ssz

structure Justifications where
  table : BTreeMap Bytes32 (List Bool)
  numValidators : Nat

def Justifications.tryFrom (state : State) : Except StateTransitionError Justifications :=
  let n := state.validators.length
  if n = 0 then .ok ⟨∅,0⟩
  else
    match checkedMul state.justificationsRoots.length n with
    | none => .error (.stateBoundExceeded "justifications_validators")
    | some expected =>
      let bits := state.justificationsValidators
      if bits.len ≠ expected then .error (.stateBoundExceeded "justifications_validators")
      else
        let row i := (List.range n).map fun j => (bits.get (i*n+j)).getD false
        .ok ⟨state.justificationsRoots.zipIdx.foldl
          (fun table e => table.insert e.1 (row e.2)) ∅,n⟩

theorem tryFrom_ok {state : State} (hn : state.validators.length ≠ 0) {j : Justifications}
    (h : Justifications.tryFrom state = .ok j) :
    state.justificationsValidators.len =
        state.justificationsRoots.length*state.validators.length ∧
      j.numValidators = state.validators.length ∧
      j.table.size ≤ state.justificationsRoots.length ∧
      ∀ (root : Bytes32) (row : List Bool),
        j.table[root]? = some row → row.length = state.validators.length := by
  by_cases hlt : state.justificationsRoots.length*state.validators.length < 2^64
  · simp only [Justifications.tryFrom,if_neg hn,checkedMul_of_lt hlt,guard_ok,ne_eq,not_not,
      Except.ok.injEq] at h
    obtain ⟨hlen,rfl⟩ := h
    obtain ⟨hrows,hsize⟩ := Tables.foldl_insert_rows
      (p := fun row : List Bool => row.length = state.validators.length)
      (f := fun i => (List.range state.validators.length).map fun j =>
        (state.justificationsValidators.get (i*state.validators.length+j)).getD false)
      (by simp) state.justificationsRoots.zipIdx (t := ∅) (by simp)
    refine ⟨hlen,rfl,?_,hrows⟩
    simpa using hsize
  · simp [Justifications.tryFrom,hn,checkedMul_of_ge hlt] at h

theorem tryFrom_total {state : State} (h : state.justificationsValidators.len =
    state.justificationsRoots.length*state.validators.length) :
    ∃ j, Justifications.tryFrom state = .ok j := by
  by_cases hn : state.validators.length = 0
  · exact ⟨_,if_pos hn⟩
  · have hlt : state.justificationsRoots.length*state.validators.length < 2^64 := by
      have hle := state.justificationsValidators.len_le
      have hlimit : justificationsValidatorsLimit < 2^64 := by decide
      omega
    simp only [Justifications.tryFrom,if_neg hn,checkedMul_of_lt hlt,h,ne_eq,not_true,if_false]
    exact ⟨_,rfl⟩

theorem tryFrom_packed {state : State} {table : BTreeMap Bytes32 (List Bool)}
    (hn : state.validators.length ≠ 0)
    (hroots : state.justificationsRoots = table.keys)
    (hbits : state.justificationsValidators.toList = (Tables.rowsOf table).flatten)
    (hrows : ∀ (root : Bytes32) (row : List Bool),
      table[root]? = some row → row.length = state.validators.length) :
    Justifications.tryFrom state = .ok ⟨table,state.validators.length⟩ := by
  have hwidth : ∀ row ∈ Tables.rowsOf table, row.length = state.validators.length := by
    intro row hrow
    obtain ⟨root,hroot⟩ := Tables.mem_rowsOf.mp hrow
    exact hrows root row hroot
  have hlen : state.justificationsValidators.len =
      state.justificationsRoots.length*state.validators.length := by
    rw [← Bitlist.length_toList,hbits,Tables.length_flatten_rows hwidth,Tables.length_rowsOf,hroots]
  have hlt : state.justificationsRoots.length*state.validators.length < 2^64 := by
    have hle := state.justificationsValidators.len_le
    have hlimit : justificationsValidatorsLimit < 2^64 := by decide
    omega
  have hread : ∀ i, (List.range state.validators.length).map (fun j =>
      (state.justificationsValidators.get (i*state.validators.length+j)).getD false) =
      Tables.rowAt state.validators.length state.justificationsValidators.toList i := by
    intro i
    simp [Tables.rowAt,Bitlist.get_eq]
  have htable := Tables.unpack_rowsOf hrows
  rw [Tables.unpack,← hbits,← hroots] at htable
  simp [Justifications.tryFrom,hn,checkedMul_of_lt hlt,hlen,hread,htable]

/-- The inner loop of `write_back` over one row, its columns numbered from `j`. -/
def writeRow (offset : Nat) (flat : Bitlist justificationsValidatorsLimit) (votes : List Bool)
    (j : Nat) : Except StateTransitionError (Bitlist justificationsValidatorsLimit) :=
  (votes.zipIdx j).foldlM
    (fun flat e =>
      if e.1 then
        (flat.set (offset+e.2) true).mapError
          fun _ => .stateBoundExceeded "justifications_validators"
      else .ok flat)
    flat

def writeRows (n : Nat) (flat : Bitlist justificationsValidatorsLimit) (rows : List (List Bool))
    (i : Nat) : Except StateTransitionError (Bitlist justificationsValidatorsLimit) :=
  (rows.zipIdx i).foldlM (fun flat e => writeRow (e.2*n) flat e.1 0) flat

/-- The pair `write_back` stores, rows in key order. -/
def Justifications.packed (self : Justifications) :
    Except StateTransitionError (List Bytes32 × Bitlist justificationsValidatorsLimit) :=
  let n := self.numValidators
  match checkedMul self.table.size n with
  | none => .error (.stateBoundExceeded "justifications_validators")
  | some totalBits =>
    if justificationsValidatorsLimit < totalBits then
      .error (.stateBoundExceeded "justifications_validators")
    else do
      let flat ← (Bitlist.withLength totalBits).mapError
        fun _ => .stateBoundExceeded "justifications_validators"
      let flat ← writeRows n flat (self.table.toList.map Prod.snd) 0
      return (self.table.toList.map Prod.fst,flat)

theorem writeRow_spec (offset : Nat) (votes : List Bool) {pre post : List Bool} {j : Nat}
    {flat : Bitlist justificationsValidatorsLimit}
    (hpre : pre.length = offset+j)
    (hflat : flat.toList = pre ++ List.replicate votes.length false ++ post) :
    ∃ flat', writeRow offset flat votes j = .ok flat' ∧ flat'.toList = pre ++ votes ++ post := by
  induction votes generalizing pre j flat with
  | nil => exact ⟨flat,rfl,hflat⟩
  | cons voted votes ih =>
    have hcell : flat.toList = pre ++ false :: (List.replicate votes.length false ++ post) := by
      simpa [List.replicate_succ] using hflat
    have hlive : offset+j < flat.len := by
      rw [← Bitlist.length_toList,hcell,← hpre]
      simp
    -- The cell is set to the vote: by the write, or because it was false already.
    have hstep : ∃ flat₁, (if voted then (flat.set (offset+j) true).mapError
        (fun _ => StateTransitionError.stateBoundExceeded "justifications_validators")
        else .ok flat) = .ok flat₁ ∧
        flat₁.toList = (pre ++ [voted]) ++ List.replicate votes.length false ++ post := by
      cases voted with
      | false => exact ⟨flat,rfl,by simpa using hcell⟩
      | true =>
        obtain ⟨flat₁,hset⟩ := flat.set_ok true (Nat.lt_of_lt_of_le hlive flat.len_le)
        refine ⟨flat₁,by simp [hset,Except.mapError],?_⟩
        rw [Bitlist.toList_set hlive hset,hcell,← hpre]
        simp
    obtain ⟨flat₁,hrun,hlist⟩ := hstep
    obtain ⟨flat',hrest,hfinal⟩ := ih (j := j+1) (by simp [hpre]; omega) hlist
    refine ⟨flat',?_,by simpa using hfinal⟩
    simp only [writeRow,List.zipIdx_cons,List.foldlM_cons,except_bind_ok]
    exact ⟨flat₁,hrun,hrest⟩

theorem writeRows_spec (n : Nat) (rows : List (List Bool)) (hn : ∀ row ∈ rows, row.length = n)
    {pre : List Bool} {i : Nat} {flat : Bitlist justificationsValidatorsLimit}
    (hpre : pre.length = i*n)
    (hflat : flat.toList = pre ++ List.replicate (rows.length*n) false) :
    ∃ flat', writeRows n flat rows i = .ok flat' ∧ flat'.toList = pre ++ rows.flatten := by
  induction rows generalizing pre i flat with
  | nil => exact ⟨flat,rfl,by simpa using hflat⟩
  | cons row rows ih =>
    have hrow : row.length = n := hn row (by simp)
    have hsplit : (rows.length+1)*n = n+rows.length*n := by ring
    have hzeros : flat.toList =
        pre ++ List.replicate row.length false ++ List.replicate (rows.length*n) false := by
      rw [hflat,List.length_cons,hsplit,List.replicate_add,hrow,List.append_assoc]
    obtain ⟨flat₁,hrun,hlist⟩ := writeRow_spec (i*n) row (j := 0) hpre hzeros
    obtain ⟨flat',hrest,hfinal⟩ := ih (fun r hr => hn r (by simp [hr])) (i := i+1)
      (by rw [List.length_append,hpre,hrow]; ring) hlist
    refine ⟨flat',?_,by simpa using hfinal⟩
    simp only [writeRows,List.zipIdx_cons,List.foldlM_cons,except_bind_ok]
    exact ⟨flat₁,hrun,hrest⟩

theorem packed_spec {j : Justifications}
    (hrows : ∀ (root : Bytes32) (row : List Bool),
      j.table[root]? = some row → row.length = j.numValidators)
    (hfit : j.table.size*j.numValidators ≤ justificationsValidatorsLimit) :
    ∃ flat, j.packed = .ok (j.table.keys,flat) ∧
      flat.toList = (Tables.rowsOf j.table).flatten := by
  have hlt : j.table.size*j.numValidators < 2^64 := by
    have hlimit : justificationsValidatorsLimit < 2^64 := by decide
    omega
  have hwidth : ∀ row ∈ Tables.rowsOf j.table, row.length = j.numValidators := by
    intro row hrow
    obtain ⟨root,hroot⟩ := Tables.mem_rowsOf.mp hrow
    exact hrows root row hroot
  obtain ⟨zeros,hzeros⟩ := Bitlist.withLength_ok hfit
  have hblank : zeros.toList =
      [] ++ List.replicate ((Tables.rowsOf j.table).length*j.numValidators) false := by
    simp [Bitlist.toList_withLength hzeros,Tables.rowsOf]
  obtain ⟨flat,hrun,hlist⟩ := writeRows_spec j.numValidators (Tables.rowsOf j.table) hwidth
    (i := 0) (by simp) hblank
  refine ⟨flat,?_,by simpa using hlist⟩
  rw [Tables.rowsOf] at hrun
  simp [Justifications.packed,checkedMul_of_lt hlt,Nat.not_lt.mpr hfit,hzeros,Except.mapError,hrun,
    bind,Except.bind,pure,Except.pure,Std.ExtTreeMap.map_fst_toList_eq_keys]

theorem packed_fits {j : Justifications} {stored : List Bytes32 × Bitlist justificationsValidatorsLimit}
    (h : j.packed = .ok stored) :
    j.table.size*j.numValidators ≤ justificationsValidatorsLimit := by
  by_cases hlt : j.table.size*j.numValidators < 2^64
  · simp only [Justifications.packed,checkedMul_of_lt hlt,guard_ok] at h
    exact Nat.le_of_not_lt h.1
  · simp [Justifications.packed,checkedMul_of_ge hlt] at h

def Justifications.writeBack (self : Justifications) : Update Unit := do
  let stored ← check self.packed
  modify fun state => { state with
    justificationsRoots := stored.1
    justificationsValidators := stored.2 }

def boundedSlotIndex (slot : Slot) (kind : AttSlotKind) (len : Nat) :
    Except StateTransitionError Nat :=
  if slot.get < len then .ok slot.get else .error (.attestationSlotOutOfRange kind slot len)

theorem boundedSlotIndex_ok {slot : Slot} {kind : AttSlotKind} {len i : Nat} :
    boundedSlotIndex slot kind len = .ok i ↔ slot.get < len ∧ slot.get = i := by
  by_cases h : slot.get < len
  · simp [boundedSlotIndex,h]
  · simp [boundedSlotIndex,h]

/-- The working copies of one batch. -/
structure Working where
  justifications : Justifications
  justifiedSlots : Bitlist historicalRootsLimit
  latestJustified : Checkpoint
  latestFinalized : Checkpoint

def Working.start (self : State) : Except StateTransitionError Working := do
  let justifications ← Justifications.tryFrom self
  return ⟨justifications,self.justifiedSlots,self.latestJustified,self.latestFinalized⟩

/-- The semantic filters: a vote that fails one is skipped. -/
def Working.Acceptable (self : State) (w : Working) (vote : AttestationData) : Prop :=
  w.justifiedSlots.get vote.source.slot.get = some true ∧
  w.justifiedSlots.get vote.target.slot.get = some false ∧
  self.historicalBlockHashes[vote.source.slot.get]? = some vote.source.root ∧
  self.historicalBlockHashes[vote.target.slot.get]? = some vote.target.root ∧
  vote.source.slot.get < vote.target.slot.get ∧
  vote.target.slot.isJustifiableAfter w.latestFinalized.slot = true

instance (self : State) (w : Working) (vote : AttestationData) :
    Decidable (w.Acceptable self vote) := inferInstanceAs (Decidable (_ ∧ _))

def Working.ballot (w : Working) (att : Attestation) : List Bool :=
  (w.justifications.table[att.data.target.root]?.getD
    (List.replicate w.justifications.numValidators false)).set att.validatorId.get true

/-- No justifiable slot lies strictly between source and target. -/
def noIntermediate (finalized : Slot) (sourceIdx targetIdx : Nat) : Bool :=
  (List.range' (sourceIdx+1) (targetIdx - (sourceIdx+1))).all
    fun mid => !(Slot.ofNat mid).isJustifiableAfter finalized

def checkRanges (self : State) (att : Attestation) : Except StateTransitionError Unit := do
  let vote := att.data
  let _ ← boundedSlotIndex vote.source.slot .source self.justifiedSlots.len
  let _ ← boundedSlotIndex vote.source.slot .source self.historicalBlockHashes.length
  let _ ← boundedSlotIndex vote.target.slot .target self.justifiedSlots.len
  let _ ← boundedSlotIndex vote.target.slot .target self.historicalBlockHashes.length
  if att.validatorId.get < self.validators.length then .ok ()
  else .error (.attestationValidatorOutOfRange att.validatorId self.numValidators)

/-- What the range checks ask of a vote; a failure aborts the whole batch. -/
structure InRange (s : State) (att : Attestation) : Prop where
  sourceBit : att.data.source.slot.get < s.justifiedSlots.len
  sourceRoot : att.data.source.slot.get < s.historicalBlockHashes.length
  targetBit : att.data.target.slot.get < s.justifiedSlots.len
  targetRoot : att.data.target.slot.get < s.historicalBlockHashes.length
  validator : att.validatorId.get < s.validators.length

theorem checkRanges_ok {self : State} {att : Attestation} :
    checkRanges self att = .ok () ↔ InRange self att := by
  have hlast : (if att.validatorId.get < self.validators.length then .ok ()
      else .error (.attestationValidatorOutOfRange att.validatorId self.numValidators) :
      Except StateTransitionError Unit) = .ok () ↔ att.validatorId.get < self.validators.length := by
    by_cases h : att.validatorId.get < self.validators.length
    · simp [h]
    · simp [h]
  simp only [checkRanges,except_bind_ok,boundedSlotIndex_ok,hlast]
  constructor
  · rintro ⟨_,⟨h1,-⟩,_,⟨h2,-⟩,_,⟨h3,-⟩,_,⟨h4,-⟩,h5⟩
    exact ⟨h1,h2,h3,h4,h5⟩
  · rintro ⟨h1,h2,h3,h4,h5⟩
    exact ⟨_,⟨h1,rfl⟩,_,⟨h2,rfl⟩,_,⟨h3,rfl⟩,_,⟨h4,rfl⟩,h5⟩

def Working.tally (self : State) (w : Working) (att : Attestation) :
    Except StateTransitionError Working :=
  let vote := att.data
  if ¬ w.Acceptable self vote then .ok w
  else
    let votes := w.ballot att
    let table := w.justifications.table.insert vote.target.root votes
    let count := votes.count true
    if 3*count < 2*self.validators.length then
      .ok { w with justifications := { w.justifications with table := table } }
    else do
      let justifiedSlots ← (w.justifiedSlots.set vote.target.slot.get true).mapError
        fun _ => .stateBoundExceeded "justified_slots"
      return {
        justifications := { w.justifications with table := table.erase vote.target.root }
        justifiedSlots := justifiedSlots
        latestJustified := vote.target
        latestFinalized :=
          if noIntermediate w.latestFinalized.slot vote.source.slot.get vote.target.slot.get then
            vote.source
          else w.latestFinalized }

/-- What the vote loop does with a vote. -/
inductive Verdict where
  | skipped
  | counted
  | justified
  deriving DecidableEq, Repr

def Working.verdict (self : State) (w : Working) (att : Attestation) : Verdict :=
  if ¬ w.Acceptable self att.data then .skipped
  else if 3*(w.ballot att).count true < 2*self.validators.length then .counted
  else .justified

def Working.counted (w : Working) (att : Attestation) : Working :=
  { w with justifications := { w.justifications with
      table := w.justifications.table.insert att.data.target.root (w.ballot att) } }

def Working.justify (w : Working) (att : Attestation) (bits : Bitlist historicalRootsLimit) :
    Working where
  justifications := { w.justifications with
    table := (w.justifications.table.insert att.data.target.root (w.ballot att)).erase
      att.data.target.root }
  justifiedSlots := bits
  latestJustified := att.data.target
  latestFinalized :=
    if noIntermediate w.latestFinalized.slot att.data.source.slot.get att.data.target.slot.get then
      att.data.source
    else w.latestFinalized

theorem tally_cases {self : State} {w next : Working} {att : Attestation}
    (h : w.tally self att = .ok next) :
    (w.verdict self att = .skipped ∧ ¬ w.Acceptable self att.data ∧ next = w) ∨
    (w.verdict self att = .counted ∧ w.Acceptable self att.data ∧
      3*(w.ballot att).count true < 2*self.validators.length ∧ next = w.counted att) ∨
    (w.verdict self att = .justified ∧ w.Acceptable self att.data ∧
      2*self.validators.length ≤ 3*(w.ballot att).count true ∧ ∃ bits,
        w.justifiedSlots.set att.data.target.slot.get true = .ok bits ∧
          next = w.justify att bits) := by
  by_cases hacc : w.Acceptable self att.data
  · by_cases hq : 3*(w.ballot att).count true < 2*self.validators.length
    · refine .inr (.inl ⟨by simp [Working.verdict,hacc,hq],hacc,hq,?_⟩)
      simpa [Working.tally,hacc,hq,Working.counted,eq_comm] using h
    · refine .inr (.inr ⟨by simp [Working.verdict,hacc,hq],hacc,Nat.le_of_not_lt hq,?_⟩)
      simp only [Working.tally,hacc,hq,not_true_eq_false,if_false,except_bind_ok,mapError_ok,
        except_pure_ok] at h
      obtain ⟨bits,hset,rfl⟩ := h
      exact ⟨bits,hset,rfl⟩
  · refine .inl ⟨by simp [Working.verdict,hacc],hacc,?_⟩
    simpa [Working.tally,hacc,eq_comm] using h

theorem tally_total (self : State) (w : Working) (att : Attestation) :
    ∃ next, w.tally self att = .ok next := by
  -- Past the range checks a bit that reads false can be set.
  by_cases hacc : w.Acceptable self att.data
  · by_cases hq : 3*(w.ballot att).count true < 2*self.validators.length
    · simp [Working.tally,hacc,hq]
    · have hlive : att.data.target.slot.get < historicalRootsLimit := by
        have hget := hacc.2.1
        rw [Bitlist.get_eq] at hget
        have hlt := (List.getElem?_eq_some_iff.mp hget).1
        rw [Bitlist.length_toList] at hlt
        exact Nat.lt_of_lt_of_le hlt w.justifiedSlots.len_le
      obtain ⟨bits,hset⟩ := w.justifiedSlots.set_ok true hlive
      exact ⟨w.justify att bits,by
        simp [Working.tally,hacc,hq,hset,Except.mapError,bind,Except.bind,pure,Except.pure,
          Working.justify]⟩
  · exact ⟨w,by simp [Working.tally,hacc]⟩

def attest (self : State) (w : Working) (att : Attestation) : Except StateTransitionError Working := do
  checkRanges self att
  w.tally self att

theorem attest_ok {self : State} {w next : Working} {att : Attestation} :
    attest self w att = .ok next ↔ InRange self att ∧ w.tally self att = .ok next := by
  simp only [attest,except_bind_ok]
  constructor
  · rintro ⟨⟨⟩,hr,ht⟩
    exact ⟨checkRanges_ok.mp hr,ht⟩
  · rintro ⟨hr,ht⟩
    exact ⟨(),checkRanges_ok.mpr hr,ht⟩

def attestAll (self : State) (w : Working) (attestations : List Attestation) :
    Except StateTransitionError Working :=
  attestations.foldlM (attest self) w

theorem attestAll_error {self : State} {w : Working} {attestations : List Attestation}
    {e : StateTransitionError} (h : attestAll self w attestations = .error e) :
    ∃ att ∈ attestations, checkRanges self att = .error e := by
  induction attestations generalizing w with
  | nil => cases h
  | cons att rest ih =>
    rw [attestAll,List.foldlM_cons,except_bind_error] at h
    rcases h with hatt | ⟨next,-,hrest⟩
    · rw [attest,except_bind_error] at hatt
      rcases hatt with hrange | ⟨-,-,htally⟩
      · exact ⟨att,by simp,hrange⟩
      · obtain ⟨next,hok⟩ := tally_total self w att
        rw [hok] at htally
        cases htally
    · obtain ⟨att',hmem,hrange⟩ := ih hrest
      exact ⟨att',by simp [hmem],hrange⟩

theorem attestAll_iff {self : State} {w : Working} {atts : List Attestation} :
    (∃ last, attestAll self w atts = .ok last) ↔ ∀ att ∈ atts, InRange self att := by
  constructor
  · rintro ⟨last,h⟩
    induction atts generalizing w with
    | nil => simp
    | cons att atts ih =>
      rw [attestAll,List.foldlM_cons,except_bind_ok] at h
      obtain ⟨next,hatt,hrest⟩ := h
      intro att' hatt'
      rcases List.mem_cons.mp hatt' with rfl | hatt'
      · exact (attest_ok.mp hatt).1
      · exact ih hrest att' hatt'
  · intro hrange
    cases hrun : attestAll self w atts with
    | ok last => exact ⟨last,rfl⟩
    | error e =>
      obtain ⟨att,hatt,hcheck⟩ := attestAll_error hrun
      cases hcheck.symm.trans (checkRanges_ok.mpr (hrange att hatt))

def processAttestations (attestations : List Attestation) : Update Unit := do
  let self ← get
  let start ← check (Working.start self)
  let w ← check (attestAll self start attestations)
  modify fun self => { self with
    justifiedSlots := w.justifiedSlots
    latestJustified := w.latestJustified
    latestFinalized := w.latestFinalized }
  w.justifications.writeBack

def State.committed (s : State) (w : Working)
    (stored : List Bytes32 × Bitlist justificationsValidatorsLimit) : State :=
  { s with
    justifiedSlots := w.justifiedSlots
    latestJustified := w.latestJustified
    latestFinalized := w.latestFinalized
    justificationsRoots := stored.1
    justificationsValidators := stored.2 }

theorem processAttestations_ok {s t : State} {attestations : List Attestation} :
    processAttestations attestations s = .ok () t ↔ ∃ start w stored,
      Working.start s = .ok start ∧ attestAll s start attestations = .ok w ∧
        w.justifications.packed = .ok stored ∧ t = s.committed w stored := by
  simp only [processAttestations,Justifications.writeBack,estate_get_bind,estate_bind_ok,check_ok,
    estate_modify,EStateM.Result.ok.injEq]
  constructor
  · rintro ⟨start,_,⟨hstart,rfl⟩,w,_,⟨hrun,rfl⟩,_,_,⟨-,rfl⟩,stored,_,⟨hpack,rfl⟩,-,rfl⟩
    exact ⟨start,w,stored,hstart,hrun,hpack,rfl⟩
  · rintro ⟨start,w,stored,hstart,hrun,hpack,rfl⟩
    exact ⟨start,_,⟨hstart,rfl⟩,w,_,⟨hrun,rfl⟩,(),_,⟨trivial,rfl⟩,stored,_,⟨hpack,rfl⟩,
      trivial,rfl⟩

theorem processAttestations_nil {s : State} (hn : s.validators.length ≠ 0) :
    (∃ t, processAttestations [] s = .ok () t) ↔
      s.justificationsValidators.len = s.justificationsRoots.length*s.validators.length := by
  constructor
  · rintro ⟨t,ht⟩
    obtain ⟨start,w,stored,hstart,-⟩ := processAttestations_ok.mp ht
    obtain ⟨j,hj,-⟩ := except_bind_ok.mp hstart
    exact (tryFrom_ok hn hj).1
  · intro hlen
    obtain ⟨j,hj⟩ := tryFrom_total hlen
    obtain ⟨-,hregistry,hsize,hrows⟩ := tryFrom_ok hn hj
    have hfit : j.table.size*j.numValidators ≤ justificationsValidatorsLimit := by
      have hle := s.justificationsValidators.len_le
      rw [hregistry]
      exact (Nat.mul_le_mul_right _ hsize).trans (hlen ▸ hle)
    obtain ⟨flat,hflat,-⟩ := packed_spec (by rw [hregistry]; exact hrows) hfit
    have hstart : Working.start s =
        .ok ⟨j,s.justifiedSlots,s.latestJustified,s.latestFinalized⟩ :=
      except_bind_ok.mpr ⟨j,hj,rfl⟩
    exact ⟨_,processAttestations_ok.mpr ⟨_,_,_,hstart,rfl,hflat,rfl⟩⟩

/-- When hydration and write-back cannot fail, a batch fails only at a range check. -/
theorem processAttestations_error {s t : State} {attestations : List Attestation}
    {e : StateTransitionError} {start : Working} (hstart : Working.start s = .ok start)
    (hpack : ∀ w, attestAll s start attestations = .ok w →
      ∃ stored, w.justifications.packed = .ok stored)
    (h : processAttestations attestations s = .error e t) :
    ∃ att ∈ attestations, checkRanges s att = .error e := by
  rw [processAttestations,estate_get_bind,
    estate_bind_of_ok (check_ok.mpr ⟨hstart,rfl⟩),estate_bind_error] at h
  rcases h with hrun | ⟨w,_,hrun,hrest⟩
  · exact attestAll_error (check_error.mp hrun).1
  · obtain ⟨hok,rfl⟩ := check_ok.mp hrun
    obtain ⟨stored,hstored⟩ := hpack w hok
    rw [estate_modify_bind,Justifications.writeBack,
      estate_bind_of_ok (check_ok.mpr ⟨hstored,rfl⟩)] at hrest
    cases hrest

structure Cast where
  att : Attestation
  verdict : Verdict
  deriving DecidableEq

/-- It takes away the row that `att` is counted in, and justifies another slot. -/
def Cast.Clears (self : Cast) (att : Attestation) : Prop :=
  self.verdict = .justified ∧ self.att.data.target.root = att.data.target.root ∧
    self.att.data.target.slot ≠ att.data.target.slot

instance (c : Cast) (att : Attestation) : Decidable (c.Clears att) :=
  inferInstanceAs (Decidable (_ ∧ _ ∧ _))

def castLog (self : State) : Working → List Attestation → List Cast
  | _, [] => []
  | w, att :: rest =>
    ⟨att,w.verdict self att⟩ ::
      match attest self w att with
      | .ok next => castLog self next rest
      | .error _ => []

/-- Two thirds of `n` voters each had a vote accepted in `log` for a target with `P`. -/
def Supported (n : Nat) (log : List Cast) (P : Checkpoint → Prop) : Prop :=
  ∃ voters : Finset Nat, 2*n ≤ 3*voters.card ∧ ∀ v ∈ voters, ∃ c ∈ log,
    c.verdict ≠ .skipped ∧ P c.att.data.target ∧ c.att.validatorId.get = v

theorem Supported.mono {n : Nat} {log log' : List Cast} {P Q : Checkpoint → Prop}
    (h : Supported n log P) (hlog : log ⊆ log')
    (hPQ : ∀ c ∈ log, c.verdict ≠ .skipped → P c.att.data.target → Q c.att.data.target) :
    Supported n log' Q := by
  obtain ⟨voters,hcard,hvotes⟩ := h
  refine ⟨voters,hcard,fun v hv => ?_⟩
  obtain ⟨c,hc,hacc,hP,hvoter⟩ := hvotes v hv
  exact ⟨c,hlog hc,hacc,hPQ c hc hacc hP,hvoter⟩

/-- `v` had a vote for `root` accepted, and neither that vote nor a later one justified
`root` and so removed its row. -/
def LiveVote (log : List Cast) (root : Bytes32) (v : Nat) : Prop :=
  ∃ before c after, log = before ++ c :: after ∧ c.verdict ≠ .skipped ∧
    c.att.data.target.root = root ∧ c.att.validatorId.get = v ∧
    ∀ d ∈ c :: after, d.verdict = .justified → d.att.data.target.root ≠ root

/-- Accepted votes that share a target root share its slot. -/
def RootsNameSlots (log : List Cast) : Prop :=
  ∀ a ∈ log, ∀ b ∈ log, a.verdict ≠ .skipped → b.verdict ≠ .skipped →
    a.att.data.target.root = b.att.data.target.root → a.att.data.target.slot = b.att.data.target.slot

def justifying (log : List Cast) : List Cast := log.filter fun c => c.verdict = .justified

theorem mem_justifying {log : List Cast} {c : Cast} :
    c ∈ justifying log ↔ c ∈ log ∧ c.verdict = .justified := by
  simp [justifying]

/-- The votes that reached two thirds came in the order of their target slots. -/
def Ascending (log : List Cast) : Prop :=
  (justifying log).Pairwise fun a b => a.att.data.target.slot.get < b.att.data.target.slot.get

end Devnet.Protocol
