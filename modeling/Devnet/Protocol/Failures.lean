import Devnet.Protocol.StateCodec
import Devnet.Protocol.Transition
import Devnet.Ssz.Binding

/-!
What a failing call leaves behind. A header writes the history before it knows that the justified
bits have room; a batch writes its bits and checkpoints before it knows that the tally fits. Where
these two late checks can fail, the state is left half written.
-/

set_option autoImplicit false

namespace Devnet.Protocol
open Machine Devnet.Types Devnet.Ssz

def Grows (s t : State) : Prop := s.historicalBlockHashes.length ≤ t.historicalBlockHashes.length

theorem Grows.bind {α β : Type} {x : Update α} {f : α → Update β} {s : State}
    (hx : Grows s (after x s)) (hf : ∀ a m, Grows m (after (f a) m)) :
    Grows s (after (x >>= f) s) :=
  after_bind (R := Grows) Nat.le_trans hx fun _ => hf _ _

theorem grows_pushJustified (value : Bool) (s : State) :
    Grows s (after (pushJustified value) s) := by
  unfold after pushJustified
  rw [estate_get_bind]
  cases s.justifiedSlots.set s.justifiedSlots.len value with
  | error e => exact Nat.le_refl _
  | ok bits => exact Nat.le_refl _

theorem grows_pushMany (n : Nat) (s : State) :
    Grows s (after (times (pushJustified false) n) s) := by
  induction n generalizing s with
  | zero => exact Nat.le_refl _
  | succ n ih => exact (grows_pushJustified false s).bind fun _ m => ih m

theorem grows_modify {f : State → State} (hf : ∀ s, Grows s (f s)) (s : State) :
    Grows s (after (modify f : Update Unit) s) := hf s

theorem tally_bits {self : State} {w next : Working} {att : Attestation}
    (h : w.tally self att = .ok next) :
    (∀ i, w.justifiedSlots.get i = some true → next.justifiedSlots.get i = some true) ∧
      (w.verdict self att ≠ .justified → next.justifiedSlots = w.justifiedSlots ∧
        next.latestJustified = w.latestJustified ∧ next.latestFinalized = w.latestFinalized) ∧
      (w.verdict self att = .justified → ∃ i, w.justifiedSlots.get i ≠ some true ∧
        next.justifiedSlots.get i = some true) := by
  rcases tally_cases h with ⟨hverdict,-,rfl⟩ | ⟨hverdict,-,-,rfl⟩ | ⟨hverdict,hacc,-,bits,hset,rfl⟩
  · simp [hverdict]
  · simp [hverdict,Working.counted]
  · have hopen := hacc.2.1
    have hlive : att.data.target.slot.get < w.justifiedSlots.len := by
      rw [Bitlist.get_eq] at hopen
      simpa using (List.getElem?_eq_some_iff.mp hopen).1
    have hbits : ∀ i, bits.get i =
        (w.justifiedSlots.toList.set att.data.target.slot.get true)[i]? := by
      intro i
      rw [Bitlist.get_eq,Bitlist.toList_set hlive hset]
    have htarget : bits.get att.data.target.slot.get = some true := by
      rw [hbits,List.getElem?_set_self (by simpa using hlive)]
    refine ⟨fun i hi => ?_,fun hne => absurd hverdict hne,fun _ => ⟨_,by simp [hopen],htarget⟩⟩
    by_cases hti : att.data.target.slot.get = i
    · rw [← hti]
      exact htarget
    · change bits.get i = some true
      rw [hbits,List.getElem?_set_ne hti,← Bitlist.get_eq]
      exact hi

theorem castLog_cons {self : State} {w next : Working} {att : Attestation}
    (h : attest self w att = .ok next) (atts : List Attestation) :
    castLog self w (att :: atts) = ⟨att,w.verdict self att⟩ :: castLog self next atts := by
  simp [castLog,h]

theorem attestAll_bits {self : State} {w last : Working} {atts : List Attestation}
    (h : attestAll self w atts = .ok last) :
    (∀ i, w.justifiedSlots.get i = some true → last.justifiedSlots.get i = some true) ∧
      ((∀ c ∈ castLog self w atts, c.verdict ≠ .justified) →
        last.justifiedSlots = w.justifiedSlots ∧ last.latestJustified = w.latestJustified ∧
          last.latestFinalized = w.latestFinalized) ∧
      ((∃ c ∈ castLog self w atts, c.verdict = .justified) →
        ∃ i, w.justifiedSlots.get i ≠ some true ∧ last.justifiedSlots.get i = some true) := by
  induction atts generalizing w with
  | nil =>
    obtain rfl := except_pure_ok.mp h
    simp [castLog]
  | cons att atts ih =>
    rw [attestAll,List.foldlM_cons,except_bind_ok] at h
    obtain ⟨next,hatt,hrest⟩ := h
    obtain ⟨hkept,hsame,hset⟩ := tally_bits (attest_ok.mp hatt).2
    obtain ⟨hkept',hsame',hset'⟩ := ih hrest
    rw [castLog_cons hatt]
    refine ⟨fun i hi => hkept' i (hkept i hi),fun hnone => ?_,?_⟩
    · obtain ⟨h1,h2,h3⟩ := hsame (hnone _ List.mem_cons_self)
      obtain ⟨h1',h2',h3'⟩ := hsame' fun c hc => hnone c (List.mem_cons_of_mem _ hc)
      exact ⟨h1'.trans h1,h2'.trans h2,h3'.trans h3⟩
    · rintro ⟨c,hc,hjustified⟩
      rcases List.mem_cons.mp hc with rfl | hc
      · obtain ⟨i,hclear,hdone⟩ := hset hjustified
        exact ⟨i,hclear,hkept' i hdone⟩
      · obtain ⟨i,hclear,hdone⟩ := hset' ⟨c,hc,hjustified⟩
        exact ⟨i,fun hi => hclear (hkept i hi),hdone⟩

structure Ruled (n : Nat) (j : Justifications) : Prop where
  registry : j.numValidators = n
  width : ∀ (root : Bytes32) (row : List Bool), j.table[root]? = some row → row.length = n

theorem start_ruled {s : State} {start : Working} (h : Working.start s = .ok start) :
    Ruled s.validators.length start.justifications ∧
      start.justifications.table.size ≤ s.justificationsRoots.length := by
  obtain ⟨j,hj,hstart⟩ := except_bind_ok.mp h
  obtain rfl := except_pure_ok.mp hstart
  by_cases hn : s.validators.length = 0
  · have hempty : j = ⟨∅,0⟩ := by simpa [Justifications.tryFrom,hn,eq_comm] using hj
    subst hempty
    exact ⟨⟨hn.symm,by simp⟩,by simp⟩
  · obtain ⟨-,hregistry,hsize,hwidth⟩ := tryFrom_ok hn hj
    exact ⟨⟨hregistry,hwidth⟩,hsize⟩

theorem Ruled.ballot {n : Nat} {w : Working} (h : Ruled n w.justifications) (att : Attestation) :
    (w.ballot att).length = n := by
  rw [Working.ballot,List.length_set]
  cases hrow : w.justifications.table[att.data.target.root]? with
  | none => simp [h.registry]
  | some row => exact h.width _ row hrow

theorem Ruled.tally {n : Nat} {self : State} {w next : Working} {att : Attestation}
    (h : Ruled n w.justifications) (htally : w.tally self att = .ok next) :
    Ruled n next.justifications ∧
      next.justifications.table.size ≤ w.justifications.table.size+1 := by
  have hsize := Std.ExtTreeMap.size_insert_le (t := w.justifications.table)
    (k := att.data.target.root) (v := w.ballot att)
  have hwidth : ∀ (root : Bytes32) (row : List Bool),
      (w.justifications.table.insert att.data.target.root (w.ballot att))[root]? = some row →
      row.length = n := by
    intro root row hrow
    rw [Std.ExtTreeMap.getElem?_insert] at hrow
    split at hrow
    · exact Option.some.inj hrow ▸ h.ballot att
    · exact h.width root row hrow
  rcases tally_cases htally with ⟨-,-,rfl⟩ | ⟨-,-,-,rfl⟩ | ⟨-,-,-,bits,-,rfl⟩
  · exact ⟨h,Nat.le_succ _⟩
  · exact ⟨⟨h.registry,hwidth⟩,hsize⟩
  · refine ⟨⟨h.registry,fun root row hrow => ?_⟩,Std.ExtTreeMap.size_erase_le.trans hsize⟩
    simp only [Working.justify] at hrow
    rw [Std.ExtTreeMap.getElem?_erase] at hrow
    split at hrow
    · cases hrow
    · exact hwidth root row hrow

theorem Ruled.attestAll {n : Nat} {self : State} {w last : Working} {atts : List Attestation}
    (h : Ruled n w.justifications) (hrun : Protocol.attestAll self w atts = .ok last) :
    Ruled n last.justifications ∧
      last.justifications.table.size ≤ w.justifications.table.size+atts.length := by
  induction atts generalizing w with
  | nil =>
    obtain rfl := except_pure_ok.mp hrun
    exact ⟨h,Nat.le_refl _⟩
  | cons att atts ih =>
    rw [Protocol.attestAll,List.foldlM_cons,except_bind_ok] at hrun
    obtain ⟨next,hatt,hrest⟩ := hrun
    obtain ⟨hnext,hsize⟩ := h.tally (attest_ok.mp hatt).2
    obtain ⟨hlast,hsize'⟩ := ih hnext hrest
    rw [List.length_cons]
    exact ⟨hlast,by omega⟩

def Cast.keep (rows : Finset Bytes32) (c : Cast) : Finset Bytes32 :=
  match c.verdict with
  | .skipped => rows
  | .counted => insert c.att.data.target.root rows
  | .justified => rows.erase c.att.data.target.root

/-- The roots with a row after a batch: those stored and those voted for, less the justified. -/
def State.rowsLeft (s : State) (log : List Cast) : Finset Bytes32 :=
  log.foldl Cast.keep s.justificationsRoots.toFinset

def Justifications.roots (j : Justifications) : Finset Bytes32 := j.table.keys.toFinset

theorem Justifications.mem_roots {j : Justifications} {root : Bytes32} :
    root ∈ j.roots ↔ root ∈ j.table := by
  rw [Justifications.roots,List.mem_toFinset,Std.ExtTreeMap.mem_keys]

theorem Justifications.card_roots (j : Justifications) : j.roots.card = j.table.size := by
  rw [Justifications.roots,List.toFinset_card_of_nodup Std.ExtTreeMap.nodup_keys,
    Std.ExtTreeMap.length_keys]

theorem start_roots {s : State} {start : Working} (hn : s.validators.length ≠ 0)
    (h : Working.start s = .ok start) :
    start.justifications.roots = s.justificationsRoots.toFinset := by
  obtain ⟨j,hj,hstart⟩ := except_bind_ok.mp h
  obtain rfl := except_pure_ok.mp hstart
  ext root
  rw [Justifications.mem_roots,List.mem_toFinset]
  have hlen := (tryFrom_ok hn hj).1
  have hlt : s.justificationsRoots.length*s.validators.length < 2^64 := by
    have hle := s.justificationsValidators.len_le
    have hlimit : justificationsValidatorsLimit < 2^64 := by decide
    omega
  simp only [Justifications.tryFrom,if_neg hn,checkedMul_of_lt hlt,guard_ok,ne_eq,not_not,
    Except.ok.injEq] at hj
  obtain ⟨-,rfl⟩ := hj
  refine (Tables.mem_foldl_insert (f := fun i => (List.range s.validators.length).map fun j =>
    (s.justificationsValidators.get (i*s.validators.length+j)).getD false) _ _ _).trans ?_
  simp

theorem tally_roots {self : State} {w next : Working} {att : Attestation}
    (h : w.tally self att = .ok next) :
    next.justifications.roots = Cast.keep w.justifications.roots ⟨att,w.verdict self att⟩ := by
  rcases tally_cases h with ⟨hverdict,-,rfl⟩ | ⟨hverdict,-,-,rfl⟩ | ⟨hverdict,-,-,bits,-,rfl⟩
  · simp [Cast.keep,hverdict]
  · ext root
    rw [Cast.keep,hverdict,Finset.mem_insert,Justifications.mem_roots,Justifications.mem_roots,
      Working.counted,Std.ExtTreeMap.mem_insert,Std.compare_eq_iff_eq]
    tauto
  · ext root
    rw [Cast.keep,hverdict,Finset.mem_erase,Justifications.mem_roots,Justifications.mem_roots,
      Working.justify,Std.ExtTreeMap.mem_erase,Std.ExtTreeMap.mem_insert,ne_eq,
      Std.compare_eq_iff_eq]
    tauto

theorem attestAll_roots {self : State} {w last : Working} {atts : List Attestation}
    (h : attestAll self w atts = .ok last) :
    last.justifications.roots = (castLog self w atts).foldl Cast.keep w.justifications.roots := by
  induction atts generalizing w with
  | nil =>
    obtain rfl := except_pure_ok.mp h
    rfl
  | cons att atts ih =>
    rw [attestAll,List.foldlM_cons,except_bind_ok] at h
    obtain ⟨next,hatt,hrest⟩ := h
    rw [castLog_cons hatt,List.foldl_cons,← tally_roots (attest_ok.mp hatt).2]
    exact ih hrest

theorem Ruled.packed_iff {n : Nat} {j : Justifications} (h : Ruled n j) :
    (∃ stored, j.packed = .ok stored) ↔ j.roots.card*n ≤ justificationsValidatorsLimit := by
  rw [j.card_roots,← h.registry]
  constructor
  · rintro ⟨stored,hstored⟩
    exact packed_fits hstored
  · intro hfit
    obtain ⟨flat,hflat,-⟩ := packed_spec (fun root row hrow => (h.width root row hrow).trans
      h.registry.symm) hfit
    exact ⟨_,hflat⟩

/-- The three ways a batch fails. Only the last comes after an assignment. -/
theorem processAttestations_fails {s t : State} {atts : List Attestation}
    {e : StateTransitionError} :
    processAttestations atts s = .error e t ↔
      (Working.start s = .error e ∧ t = s) ∨
      (∃ start, Working.start s = .ok start ∧ attestAll s start atts = .error e ∧ t = s) ∨
      ∃ start w, Working.start s = .ok start ∧ attestAll s start atts = .ok w ∧
        w.justifications.packed = .error e ∧ t = { s with
          justifiedSlots := w.justifiedSlots
          latestJustified := w.latestJustified
          latestFinalized := w.latestFinalized } := by
  rw [processAttestations,estate_get_bind]
  cases hstart : Working.start s with
  | error e' => simp [eq_comm]
  | ok start =>
    cases hrun : attestAll s start atts with
    | error e' => simp [hrun,eq_comm]
    | ok w =>
      cases hpack : w.justifications.packed with
      | error e' => simp [hrun,hpack,Justifications.writeBack,eq_comm]
      | ok stored => simp [hrun,hpack,Justifications.writeBack]

theorem processAttestations_atomic (s : State) (atts : List Attestation) :
    (∀ e t, processAttestations atts s = .error e t → t = s) ↔
      ∀ start, Working.start s = .ok start → (∀ att ∈ atts, InRange s att) →
        (∃ c ∈ castLog s start atts, c.verdict = .justified) →
          (s.rowsLeft (castLog s start atts)).card*s.validators.length ≤
            justificationsValidatorsLimit := by
  have hrows : ∀ start w, Working.start s = .ok start → attestAll s start atts = .ok w →
      ((∃ stored, w.justifications.packed = .ok stored) ↔
        (s.rowsLeft (castLog s start atts)).card*s.validators.length ≤
          justificationsValidatorsLimit) := by
    intro start w hstart hrun
    rw [((start_ruled hstart).1.attestAll hrun).1.packed_iff]
    by_cases hn : s.validators.length = 0
    · simp [hn]
    · rw [State.rowsLeft,← start_roots hn hstart,← attestAll_roots hrun]
  constructor
  · intro hatomic start hstart hrange hjustified
    obtain ⟨w,hrun⟩ := attestAll_iff.mpr hrange
    rw [← hrows start w hstart hrun]
    cases hpack : w.justifications.packed with
    | ok stored => exact ⟨stored,rfl⟩
    | error e =>
      -- the bits of the justified target were already assigned
      obtain ⟨i,hclear,hset⟩ := (attestAll_bits hrun).2.2 hjustified
      have hsame := hatomic e _ (processAttestations_fails.mpr (.inr (.inr
        ⟨start,w,hstart,hrun,hpack,rfl⟩)))
      obtain ⟨j,-,hw⟩ := except_bind_ok.mp hstart
      obtain rfl := except_pure_ok.mp hw
      exact absurd (congrArg (fun t => t.justifiedSlots.get i) hsame ▸ hset) hclear
  · intro hroom e t hfail
    rcases processAttestations_fails.mp hfail with ⟨-,ht⟩ | ⟨-,-,-,ht⟩ |
      ⟨start,w,hstart,hrun,hpack,ht⟩
    · exact ht
    · exact ht
    · by_cases hjustified : ∃ c ∈ castLog s start atts, c.verdict = .justified
      · obtain ⟨stored,hok⟩ := (hrows start w hstart hrun).mpr
          (hroom start hstart (attestAll_iff.mp ⟨w,hrun⟩) hjustified)
        cases hok.symm.trans hpack
      · push Not at hjustified
        obtain ⟨hbits,hlatest,hfinal⟩ := (attestAll_bits hrun).2.1 hjustified
        obtain ⟨j,-,hw⟩ := except_bind_ok.mp hstart
        obtain rfl := except_pure_ok.mp hw
        rw [ht,hbits,hlatest,hfinal]

theorem castLog_history {self : State} (w : Working) (atts : List Attestation) :
    ∀ c ∈ castLog self w atts, c.verdict ≠ .skipped →
      c.att.data.target.root ∈ self.historicalBlockHashes := by
  induction atts generalizing w with
  | nil => simp [castLog]
  | cons att atts ih =>
    intro c hc hverdict
    rcases List.mem_cons.mp hc with rfl | hc
    · by_cases hacc : w.Acceptable self att.data
      · exact List.mem_of_getElem? hacc.2.2.2.1
      · simp [Working.verdict,hacc] at hverdict
    · cases hatt : attest self w att with
      | error e => simp [hatt] at hc
      | ok next =>
        rw [hatt] at hc
        exact ih next c hc hverdict

theorem keep_subset {rows known : Finset Bytes32} {log : List Cast} (hrows : rows ⊆ known)
    (hlog : ∀ c ∈ log, c.verdict ≠ .skipped → c.att.data.target.root ∈ known) :
    log.foldl Cast.keep rows ⊆ known := by
  induction log generalizing rows with
  | nil => exact hrows
  | cons c log ih =>
    refine ih ?_ fun c' hc' => hlog c' (List.mem_cons_of_mem _ hc')
    have hc := hlog c List.mem_cons_self
    rw [Cast.keep]
    split
    · exact hrows
    · rename_i hcounted
      exact Finset.insert_subset (hc (by simp [hcounted])) hrows
    · exact (Finset.erase_subset _ _).trans hrows

theorem processAttestations_known (s : State) (atts : List Attestation)
    (hroom : (s.justificationsRoots ++ s.historicalBlockHashes).toFinset.card*
      s.validators.length ≤ justificationsValidatorsLimit) :
    ∀ e t, processAttestations atts s = .error e t → t = s := by
  refine (processAttestations_atomic s atts).mpr fun start _ _ _ => ?_
  refine le_trans (Nat.mul_le_mul_right _ (Finset.card_le_card ?_)) hroom
  refine keep_subset ?_ fun c hc hverdict => ?_
  · simp
  · have hroot := castLog_history start atts c hc hverdict
    simp [hroot]

section
variable [HashPair]

theorem processBlockHeader_refused {s : State} {block : Block} (h : ¬HeaderFits s block) :
    ∃ e, processBlockHeader block s = .error e s := by
  cases hgate : s.validateHeader block with
  | ok emptySlots => exact absurd (validateHeader_ok.mp hgate).1 h
  | error e =>
    refine ⟨e,?_⟩
    rw [processBlockHeader,estate_get_bind]
    exact estate_bind_error.mpr (.inl (check_error.mpr ⟨hgate,rfl⟩))

/-- Past the gate the parent's root is in the history, whatever else happens. -/
theorem processBlockHeader_history {s : State} {block : Block} (h : HeaderFits s block) :
    s.historicalBlockHashes.length <
      (after (processBlockHeader block) s).historicalBlockHashes.length := by
  have hgate : check (s.validateHeader block) s = .ok _ s :=
    check_ok.mpr ⟨validateHeader_ok.mpr ⟨h,rfl⟩,rfl⟩
  unfold processBlockHeader
  rw [after_bind_of_ok (x := get) rfl,after_bind_of_ok hgate,after_bind_of_ok (estate_modify _ _),
    after_bind_of_ok (estate_modify _ _)]
  generalize hrooted : (if s.latestBlockHeader.slot.isZero = true then _ else s : State) = s₁
  have hsame : s₁.historicalBlockHashes = s.historicalBlockHashes := by
    rw [← hrooted]
    split <;> rfl
  -- from here on the history only grows
  refine Nat.lt_of_lt_of_le ?_ ((grows_pushJustified _ _).bind fun _ _ =>
    (grows_modify ?_ _).bind fun _ _ => (grows_pushMany _ _).bind fun _ _ =>
    grows_modify (fun _ => Nat.le_refl _) _)
  · simp [hsame]
  · intro m
    simp [Grows]

theorem processBlockHeader_atomic (s : State) (block : Block) :
    (∀ e t, processBlockHeader block s = .error e t → t = s) ↔
      (HeaderFits s block → s.justifiedSlots.len+1+s.gap block ≤ historicalRootsLimit) := by
  by_cases hfits : HeaderFits s block
  · have hhistory := processBlockHeader_history hfits
    constructor
    · intro hatomic _
      cases hrun : processBlockHeader block s with
      | ok _ t => exact processBlockHeader_room hrun
      | error e t =>
        rw [after_of_error hrun,hatomic e t hrun] at hhistory
        omega
    · intro hroom e t hrun
      obtain ⟨u,hok⟩ := processBlockHeader_fits hfits (hroom hfits)
      cases hrun.symm.trans hok
  · obtain ⟨e,hrefused⟩ := processBlockHeader_refused hfits
    refine ⟨fun _ h => absurd h hfits,fun _ e t hrun => ?_⟩
    cases hrefused.symm.trans hrun
    rfl

theorem errors_leave_state (s : State) (block : Block) (atts : List Attestation) :
    ((∀ e t, processBlockHeader block s = .error e t → t = s) ↔
        (HeaderFits s block → s.justifiedSlots.len+1+s.gap block ≤ historicalRootsLimit)) ∧
      ((∀ e t, processAttestations atts s = .error e t → t = s) ↔
        ∀ start, Working.start s = .ok start → (∀ att ∈ atts, InRange s att) →
          (∃ c ∈ castLog s start atts, c.verdict = .justified) →
            (s.rowsLeft (castLog s start atts)).card*s.validators.length ≤
              justificationsValidatorsLimit) ∧
      ((s.justificationsRoots ++ s.historicalBlockHashes).toFinset.card*s.validators.length ≤
          justificationsValidatorsLimit →
        ∀ e t, processAttestations atts s = .error e t → t = s) :=
  ⟨processBlockHeader_atomic s block,processAttestations_atomic s atts,
    processAttestations_known s atts⟩

end

theorem attest_fresh {self : State} {w : Working} {att : Attestation} (hrange : InRange self att)
    (hacc : w.Acceptable self att.data) (hruled : Ruled self.validators.length w.justifications)
    (hn : 1 < self.validators.length)
    (hrow : w.justifications.table[att.data.target.root]? = none) :
    w.verdict self att = .counted ∧ attest self w att = .ok (w.counted att) := by
  have hone : (w.ballot att).count true = 1 := by
    rw [Working.ballot,hrow,Option.getD_none,hruled.registry,← Tables.card_marked,
      Tables.marked_set (by simpa using hrange.validator),Tables.marked_replicate]
    rfl
  have hverdict : w.verdict self att = .counted := by
    have hshort : 3*1 < 2*self.validators.length := by omega
    simp only [Working.verdict,hacc,hone,hshort,not_true_eq_false,if_false,if_true]
  refine ⟨hverdict,?_⟩
  obtain ⟨next,htally⟩ := tally_total self w att
  rcases tally_cases htally with ⟨hv,-⟩ | ⟨-,-,-,rfl⟩ | ⟨hv,-⟩
  · simp [hverdict] at hv
  · exact attest_ok.mpr ⟨hrange,htally⟩
  · simp [hverdict] at hv

theorem attest_full {self : State} {w : Working} {att : Attestation} (hrange : InRange self att)
    (hacc : w.Acceptable self att.data)
    (hrow : w.justifications.table[att.data.target.root]? =
      some (List.replicate self.validators.length true)) :
    w.verdict self att = .justified ∧ ∃ bits,
      w.justifiedSlots.set att.data.target.slot.get true = .ok bits ∧
        attest self w att = .ok (w.justify att bits) := by
  have hall : (w.ballot att).count true = self.validators.length := by
    rw [Working.ballot,hrow,Option.getD_some,List.set_replicate_self,List.count_replicate_self]
  have hverdict : w.verdict self att = .justified := by
    have henough : ¬3*self.validators.length < 2*self.validators.length := by omega
    simp only [Working.verdict,hacc,hall,henough,not_true_eq_false,if_false]
  refine ⟨hverdict,?_⟩
  obtain ⟨next,htally⟩ := tally_total self w att
  rcases tally_cases htally with ⟨hv,-⟩ | ⟨hv,-⟩ | ⟨-,-,-,bits,hset,rfl⟩
  · simp [hverdict] at hv
  · simp [hverdict] at hv
  · exact ⟨bits,hset,attest_ok.mpr ⟨hrange,htally⟩⟩

theorem exists_table {count : Nat} (row : List Bool) (hcount : count ≤ 2^64) :
    ∃ table : BTreeMap Bytes32 (List Bool), table.size = count ∧
      ∀ root v, table[root]? = some v ↔ v = row ∧ ∃ i < count, u64Chunk i = root := by
  induction count with
  | zero => exact ⟨∅,rfl,by simp⟩
  | succ count ih =>
    obtain ⟨table,hsize,htable⟩ := ih (by omega)
    have hfresh : u64Chunk count ∉ table := by
      rw [Std.ExtTreeMap.mem_iff_isSome_getElem?,Option.isSome_iff_exists]
      rintro ⟨v,hv⟩
      obtain ⟨-,i,hi,hroot⟩ := (htable _ v).mp hv
      have := u64Chunk_inj (by omega) (by omega) hroot
      omega
    refine ⟨table.insert (u64Chunk count) row,?_,fun root v => ?_⟩
    · simp [Std.ExtTreeMap.size_insert,hfresh,hsize]
    · simp only [Std.ExtTreeMap.getElem?_insert,Std.compare_eq_iff_eq]
      split
      · rename_i hroot
        subst hroot
        constructor
        · rintro ⟨⟩
          exact ⟨rfl,count,by omega,rfl⟩
        · rintro ⟨rfl,-⟩
          rfl
      · rename_i hroot
        rw [htable]
        refine and_congr_right fun _ => ⟨?_,?_⟩
        · rintro ⟨i,hi,rfl⟩
          exact ⟨i,by omega,rfl⟩
        · rintro ⟨i,hi,rfl⟩
          have hne : i ≠ count := fun h => hroot (by rw [h])
          exact ⟨i,by omega,rfl⟩

theorem acceptable_voteFor {s : State} {w : Working} {voter target : Nat}
    (hlast : target < s.historicalBlockHashes.length) (hfirst : 0 < target) (htop : target ≤ 5)
    (hsource : w.justifiedSlots.get 0 = some true)
    (htarget : w.justifiedSlots.get target = some false) (hfinal : w.latestFinalized.slot.get = 0) :
    w.Acceptable s (s.voteFor (voter,0,target)).data := by
  have hslot : (Slot.ofNat target).get = target := Slot.get_ofNat (by omega)
  have hzero : (Slot.ofNat 0).get = 0 := rfl
  have hroot : ∀ i < s.historicalBlockHashes.length, s.historicalBlockHashes[i]? =
      some (s.historicalBlockHashes.getD i ByteVector.zero) := by
    intro i hi
    simp [hi]
  have hnear : (Slot.ofNat target).isJustifiableAfter w.latestFinalized.slot = true := by
    simp [Slot.isJustifiableAfter,hslot,hfinal,htop]
  refine ⟨?_,?_,?_,?_,?_,hnear⟩
  · simpa [State.voteFor,hzero] using hsource
  · simpa [State.voteFor,hslot] using htarget
  · exact hroot 0 (by omega)
  · simpa [State.voteFor,hslot] using hroot target hlast
  · simpa [State.voteFor,hslot,hzero] using hfirst

structure Crowded (s : State) (table : BTreeMap Bytes32 (List Bool)) (r₀ r₁ r₂ r₃ : Bytes32) :
    Prop where
  start : Working.start s = .ok ⟨⟨table,s.validators.length⟩,s.justifiedSlots,s.latestJustified,
    s.latestFinalized⟩
  registry : 1 < s.validators.length
  history : s.historicalBlockHashes = [r₀,r₁,r₂,r₃]
  bits : s.justifiedSlots.toList = [true,false,false,false]
  finalized : s.latestFinalized.slot.get = 0
  first : table[r₁]? = some (List.replicate s.validators.length true)
  second : table[r₂]? = none
  third : table[r₃]? = none
  distinct : r₂ ≠ r₃

def State.threeVotes (s : State) : List Attestation :=
  [s.voteFor (0,0,1),s.voteFor (0,0,2),s.voteFor (0,0,3)]

theorem inRange_voteFor {s : State} {target : Nat} (hbits : target < s.justifiedSlots.len)
    (hhistory : target < s.historicalBlockHashes.length) (htop : target ≤ 5)
    (hregistry : 0 < s.validators.length) : InRange s (s.voteFor (0,0,target)) := by
  have hslot : (s.voteFor (0,0,target)).data.target.slot.get = target :=
    Slot.get_ofNat (show target < 2^64 by omega)
  exact ⟨Nat.zero_lt_of_lt hbits,Nat.zero_lt_of_lt hhistory,hslot.symm ▸ hbits,
    hslot.symm ▸ hhistory,hregistry⟩

theorem Crowded.inRange {s : State} {table : BTreeMap Bytes32 (List Bool)} {r₀ r₁ r₂ r₃ : Bytes32}
    (h : Crowded s table r₀ r₁ r₂ r₃) : ∀ att ∈ s.threeVotes, InRange s att := by
  have hlen : s.justifiedSlots.len = 4 := by
    rw [← Bitlist.length_toList,h.bits]
    rfl
  have hlen' : s.historicalBlockHashes.length = 4 := by
    rw [h.history]
    rfl
  have hvote : ∀ target < 4, InRange s (s.voteFor (0,0,target)) := fun target hlt =>
    inRange_voteFor (by omega) (by omega) (by omega) (Nat.zero_lt_of_lt h.registry)
  simp only [State.threeVotes,List.forall_mem_cons]
  exact ⟨hvote 1 (by omega),hvote 2 (by omega),hvote 3 (by omega),by simp⟩

theorem Crowded.log {s : State} {table : BTreeMap Bytes32 (List Bool)} {r₀ r₁ r₂ r₃ : Bytes32}
    (h : Crowded s table r₀ r₁ r₂ r₃) :
    castLog s ⟨⟨table,s.validators.length⟩,s.justifiedSlots,s.latestJustified,s.latestFinalized⟩
        s.threeVotes =
      [⟨s.voteFor (0,0,1),.justified⟩,⟨s.voteFor (0,0,2),.counted⟩,
        ⟨s.voteFor (0,0,3),.counted⟩] := by
  have hrange := h.inRange
  simp only [State.threeVotes,List.forall_mem_cons] at hrange
  obtain ⟨hrange₁,hrange₂,hrange₃,-⟩ := hrange
  have hroot : ∀ i, (s.voteFor (0,0,i)).data.target.root =
      [r₀,r₁,r₂,r₃].getD i ByteVector.zero := by
    intro i
    rw [← h.history]
    rfl
  -- the first vote justifies slot 1 and drops its row
  obtain ⟨hverdict₁,bits,hset,hattest₁⟩ := attest_full hrange₁ (w := ⟨⟨table,s.validators.length⟩,
      s.justifiedSlots,s.latestJustified,s.latestFinalized⟩)
    (acceptable_voteFor (by simp [h.history]) (by omega) (by omega)
      (by simp [Bitlist.get_eq,h.bits]) (by simp [Bitlist.get_eq,h.bits]) h.finalized)
    (by rw [hroot]; exact h.first)
  have hruled₁ := ((start_ruled h.start).1.tally (attest_ok.mp hattest₁).2).1
  rw [State.threeVotes,castLog_cons hattest₁,hverdict₁]
  generalize hw : Working.justify _ _ _ = w at hruled₁
  have hbits : w.justifiedSlots.toList = [true,true,false,false] := by
    have hlive : (s.voteFor (0,0,1)).data.target.slot.get < s.justifiedSlots.len := hrange₁.targetBit
    rw [← hw,Working.justify,Bitlist.toList_set hlive hset,h.bits]
    rfl
  have hfinal : w.latestFinalized.slot.get = 0 := by
    rw [← hw,Working.justify]
    split
    · rfl
    · exact h.finalized
  have hgone : ∀ root : Bytes32, table[root]? = none → w.justifications.table[root]? = none := by
    intro root hnone
    rw [← hw,Working.justify,Std.ExtTreeMap.getElem?_erase,Std.ExtTreeMap.getElem?_insert]
    split
    · rfl
    · exact hnone
  -- the others open a row each
  obtain ⟨hverdict₂,hattest₂⟩ := attest_fresh hrange₂ (w := w)
    (acceptable_voteFor (by simp [h.history]) (by omega) (by omega)
      (by simp [Bitlist.get_eq,hbits]) (by simp [Bitlist.get_eq,hbits]) hfinal)
    hruled₁ h.registry (by rw [hroot]; exact hgone _ h.second)
  have hruled₂ := (hruled₁.tally (attest_ok.mp hattest₂).2).1
  have hthird : (w.counted (s.voteFor (0,0,2))).justifications.table[
      (s.voteFor (0,0,3)).data.target.root]? = none := by
    rw [hroot,Working.counted,Std.ExtTreeMap.getElem?_insert,hroot]
    simpa [h.distinct] using hgone _ h.third
  obtain ⟨hverdict₃,hattest₃⟩ := attest_fresh hrange₃ (w := w.counted (s.voteFor (0,0,2)))
    (acceptable_voteFor (by simp [h.history]) (by omega) (by omega)
      (by simp [Working.counted,Bitlist.get_eq,hbits])
      (by simp [Working.counted,Bitlist.get_eq,hbits]) hfinal)
    hruled₂ h.registry hthird
  rw [castLog_cons hattest₂,castLog_cons hattest₃,hverdict₂,hverdict₃]
  rfl

theorem Crowded.rowsLeft {s : State} {table : BTreeMap Bytes32 (List Bool)}
    {r₀ r₁ r₂ r₃ : Bytes32} (h : Crowded s table r₀ r₁ r₂ r₃) :
    (s.rowsLeft [⟨s.voteFor (0,0,1),.justified⟩,⟨s.voteFor (0,0,2),.counted⟩,
      ⟨s.voteFor (0,0,3),.counted⟩]).card = table.size+1 := by
  -- Three rows in, one row out: one more than a full tally has room for.
  have hstored := start_roots (Nat.ne_of_gt (Nat.zero_lt_of_lt h.registry)) h.start
  have hmem : ∀ {root : Bytes32}, root ∈ s.justificationsRoots.toFinset ↔ root ∈ table := by
    intro root
    rw [← hstored,Justifications.mem_roots]
  have hsize : s.justificationsRoots.toFinset.card = table.size := by
    rw [← hstored,Justifications.card_roots]
  have hfirst : r₁ ∈ s.justificationsRoots.toFinset := by
    simp [hmem,Std.ExtTreeMap.mem_iff_isSome_getElem?,h.first]
  have hsecond : r₂ ∉ s.justificationsRoots.toFinset := by
    simp [hmem,Std.ExtTreeMap.mem_iff_isSome_getElem?,h.second]
  have hthird : r₃ ∉ s.justificationsRoots.toFinset := by
    simp [hmem,Std.ExtTreeMap.mem_iff_isSome_getElem?,h.third]
  have hpos := Finset.card_pos.mpr ⟨_,hfirst⟩
  have hleft : s.rowsLeft [⟨s.voteFor (0,0,1),.justified⟩,⟨s.voteFor (0,0,2),.counted⟩,
      ⟨s.voteFor (0,0,3),.counted⟩] =
      insert r₃ (insert r₂ (s.justificationsRoots.toFinset.erase r₁)) := by
    simp [State.rowsLeft,Cast.keep,State.voteFor,h.history]
  have hnew₂ : r₂ ∉ s.justificationsRoots.toFinset.erase r₁ := fun hr =>
    hsecond (Finset.mem_of_mem_erase hr)
  have hnew₃ : r₃ ∉ insert r₂ (s.justificationsRoots.toFinset.erase r₁) := by
    rw [Finset.mem_insert]
    rintro (heq | hr)
    · exact h.distinct heq.symm
    · exact hthird (Finset.mem_of_mem_erase hr)
  rw [hleft,Finset.card_insert_of_notMem hnew₃,Finset.card_insert_of_notMem hnew₂,
    Finset.card_erase_of_mem hfirst]
  omega

/-- A tally as large as the limit allows: three votes of one validator justify a stored root and
open two rows. -/
theorem exists_late_failure {count n : Nat} (hn : 1 < n) (hregistry : n ≤ validatorRegistryLimit)
    (hcount : 2 ≤ count) (hroots : count ≤ historicalRootsLimit)
    (hfit : count*n ≤ justificationsValidatorsLimit)
    (hfull : justificationsValidatorsLimit < (count+1)*n) :
    ∃ s : State, s.WithinLimits ∧
      ¬∀ e t, processAttestations s.threeVotes s = .error e t → t = s := by
  have hlimit : historicalRootsLimit = 262144 := rfl
  obtain ⟨table,hsize,htable⟩ := exists_table (List.replicate n true) (show count ≤ 2^64 by omega)
  have hrows : ∀ (root : Bytes32) (row : List Bool), table[root]? = some row → row.length = n := by
    intro root row hrow
    simp [((htable root row).mp hrow).1]
  have hfresh : ∀ i, count ≤ i → i < 2^64 → table[u64Chunk i]? = none := by
    intro i hi hword
    rw [Option.eq_none_iff_forall_not_mem]
    intro row hrow
    obtain ⟨-,j,hj,hsame⟩ := (htable _ row).mp hrow
    have := u64Chunk_inj (by omega) hword hsame
    omega
  obtain ⟨flat,-,hflat⟩ := packed_spec (j := ⟨table,n⟩) hrows (by simpa [hsize] using hfit)
  obtain ⟨blank,hblank⟩ := Bitlist.withLength_ok (show 4 ≤ historicalRootsLimit by omega)
  have hfour : blank.len = 4 := by
    rw [← Bitlist.length_toList,Bitlist.toList_withLength hblank,List.length_replicate]
  obtain ⟨bits,hset⟩ := blank.set_ok true (show 0 < historicalRootsLimit by omega)
  have hbits : bits.toList = [true,false,false,false] := by
    rw [Bitlist.toList_set (by omega) hset,Bitlist.toList_withLength hblank]
    rfl
  obtain ⟨s,hs⟩ : ∃ s : State, s = { (default : State) with
    validators := List.replicate n default
    historicalBlockHashes := [u64Chunk 0,u64Chunk 1,u64Chunk count,u64Chunk (count+1)]
    justifiedSlots := bits
    justificationsRoots := table.keys
    justificationsValidators := flat } := ⟨_,rfl⟩
  have hvalidators : s.validators.length = n := by simp [hs]
  have hcrowded : Crowded s table (u64Chunk 0) (u64Chunk 1) (u64Chunk count)
      (u64Chunk (count+1)) := by
    refine ⟨?_,by omega,by rw [hs],by rw [hs]; exact hbits,by rw [hs]; rfl,?_,
      hfresh _ (Nat.le_refl _) (by omega),hfresh _ (by omega) (by omega),fun heq => ?_⟩
    · have hdecoded : Justifications.tryFrom s = .ok ⟨table,s.validators.length⟩ :=
        tryFrom_packed (by omega) (by rw [hs]) (by rw [hs]; exact hflat)
          (by rw [hvalidators]; exact hrows)
      rw [Working.start,hdecoded]
      rfl
    · rw [htable,hvalidators]
      exact ⟨rfl,1,by omega,rfl⟩
    · have := u64Chunk_inj (by omega) (by omega) heq
      omega
  refine ⟨s,⟨?_,?_,?_⟩,fun hatomic => ?_⟩
  · rw [hcrowded.history,hlimit]
    simp
  · rw [hvalidators]
    exact hregistry
  · rw [hs,Std.ExtTreeMap.length_keys,hsize]
    exact hroots
  · have hroom := (processAttestations_atomic s s.threeVotes).mp hatomic _ hcrowded.start
      hcrowded.inRange
    rw [hcrowded.log] at hroom
    have hle := hroom ⟨_,List.mem_cons_self,rfl⟩
    rw [hcrowded.rowsLeft,hsize,hvalidators] at hle
    omega

section
attribute [local instance] mixPair

def brimming (bits : Bitlist historicalRootsLimit) : State :=
  { genesisState 0 [default] with
    slot := Slot.ofNat 1
    justifiedSlots := bits }

def overflowing (bits : Bitlist historicalRootsLimit) : Block :=
  { (default : Block) with
    slot := Slot.ofNat 1
    parentRoot := hashTreeRoot (brimming bits).latestBlockHeader }

theorem overflowing_fits (bits : Bitlist historicalRootsLimit) :
    HeaderFits (brimming bits) (overflowing bits) where
  slot := rfl
  later := Nat.zero_lt_one
  registry := Nat.one_ne_zero
  proposer := Nat.mod_one _
  parent := rfl
  room := Nat.le_of_ble_eq_true rfl

/-- A state whose justified bits are full while its history is empty, and one whose tally is. -/
theorem errors_leave_traces :
    (∃ bytes s block e t, State.fromSszBytes bytes = .ok s ∧
      processBlockHeader block s = .error e t ∧ t ≠ s) ∧
    ∃ bytes s atts e t, State.fromSszBytes bytes = .ok s ∧
      processAttestations atts s = .error e t ∧ t ≠ s := by
  constructor
  · obtain ⟨full,hfull⟩ := Bitlist.withLength_ok (Nat.le_refl historicalRootsLimit)
    have hlen : full.len = historicalRootsLimit := by
      rw [← Bitlist.length_toList,Bitlist.toList_withLength hfull,List.length_replicate]
    have hlimits : (brimming full).WithinLimits := ⟨Nat.zero_le _,Nat.le_of_ble_eq_true rfl,
      Nat.zero_le _⟩
    have hlate := mt (processBlockHeader_atomic (brimming full) (overflowing full)).mp fun hroom => by
      have hle := hroom (overflowing_fits full)
      simp only [brimming] at hle
      omega
    push Not at hlate
    obtain ⟨e,t,hrun,hne⟩ := hlate
    exact ⟨_,_,_,e,t,(State.accepts _ _).mpr ⟨hlimits,rfl⟩,hrun,hne⟩
  · have hlimit : justificationsValidatorsLimit = historicalRootsLimit*validatorRegistryLimit := rfl
    obtain ⟨s,hlimits,hlate⟩ := exists_late_failure (by decide)
      (Nat.le_refl validatorRegistryLimit) (by decide) (Nat.le_refl historicalRootsLimit)
      (Nat.le_of_eq hlimit.symm) (by decide)
    push Not at hlate
    obtain ⟨e,t,hrun,hne⟩ := hlate
    exact ⟨_,s,_,e,t,(State.accepts _ _).mpr ⟨hlimits,rfl⟩,hrun,hne⟩

end

end Devnet.Protocol
