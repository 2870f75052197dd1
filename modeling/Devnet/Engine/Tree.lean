import Devnet.Engine.Node
import Devnet.Protocol.Refinement

/-!
The blocks of a node form a tree, although no operation checks it. What keeps it one is
the state transition: a block is only tracked on top of a post-state that stands at its
parent, and the header step compares slot and parent root with that state. The history
a post-state carries is then a record of the ancestors of its block.
-/

set_option autoImplicit false

namespace Devnet.Engine
open Machine Trees Devnet.Types Devnet.Ssz Devnet.Protocol Devnet.ForkChoice

theorem getElem?_tracking {st : Store} {root : Bytes32} (hnew : root ∉ st.blocks) (block : Block)
    (post : State) (r : Bytes32) :
    (st.tracking root block post).blocks[r]? =
      (if root = r then some block else st.blocks[r]?) ∧
    (st.tracking root block post).states[r]? =
      (if root = r then some post else st.states[r]?) := by
  obtain ⟨hblocks,hstates,-⟩ := tracking_new hnew block post
  rw [hblocks,hstates]
  simp [Std.ExtTreeMap.getElem?_insert]

theorem of_blocks_tracking {st : Store} {root r : Bytes32} {block b : Block} {post : State}
    (hnew : root ∉ st.blocks) (hb : (st.tracking root block post).blocks[r]? = some b) :
    root = r ∧ block = b ∨ root ≠ r ∧ st.blocks[r]? = some b := by
  rw [(getElem?_tracking hnew block post r).1] at hb
  split at hb
  · next heq => exact .inl ⟨heq,Option.some.inj hb⟩
  · next hne => exact .inr ⟨hne,hb⟩

theorem of_states_tracking {st : Store} {root r : Bytes32} {block : Block} {post s : State}
    (hnew : root ∉ st.blocks) (hs : (st.tracking root block post).states[r]? = some s) :
    root = r ∧ post = s ∨ root ≠ r ∧ st.states[r]? = some s := by
  rw [(getElem?_tracking hnew block post r).2] at hs
  split at hs
  · next heq => exact .inl ⟨heq,Option.some.inj hs⟩
  · next hne => exact .inr ⟨hne,hs⟩

theorem kept_of_tracking {held : List Block} {st : Store} {root : Bytes32} {block : Block}
    {post : State} (hnew : root ∉ st.blocks)
    (hkept : ∀ {r : Bytes32} {b : Block},
      (st.tracking root block post).blocks[r]? = some b → b ∈ held) :
    (∀ {r : Bytes32} {b : Block}, st.blocks[r]? = some b → b ∈ held) ∧ block ∈ held := by
  have hget := getElem?_tracking hnew block post
  refine ⟨?_,hkept (r := root) (by rw [(hget root).1,if_pos rfl])⟩
  intro r b hb
  have hne : root ≠ r := fun heq => hnew (heq ▸ mem_of_get hb)
  exact hkept (r := r) (by rw [(hget r).1,if_neg hne,hb])

section
variable [HashPair]

/-- Reached from some genesis by validated blocks. -/
def OnChain (s : State) : Prop :=
  ∃ genesisTime validators blocks logs,
    Chain true (genesisState genesisTime validators) blocks logs s

theorem onChain_genesis (genesisTime : UInt64) (validators : Validators) :
    OnChain (genesisState genesisTime validators) := ⟨genesisTime,validators,[],[],Run.nil _⟩

theorem OnChain.next {s t : State} {signed : SignedBlockWithAttestation} (h : OnChain s)
    (htrans : s.stateTransition signed true = .ok t) : OnChain t := by
  obtain ⟨genesisTime,validators,blocks,logs,hchain⟩ := h
  exact ⟨genesisTime,validators,_,_,hchain.snoc ⟨htrans,rfl⟩⟩

theorem OnChain.represented {s : State} (h : OnChain s) :
    ∃ n L, Represents n s L ∧ L.Consistent := by
  obtain ⟨_,validators,_,_,hchain⟩ := h
  obtain ⟨_,_,L,hreach,-,hL⟩ := hchain.represented
  exact ⟨validators.length,L,hL,hreach.consistent⟩

theorem OnChain.clock {s : State} (h : OnChain s) : s.latestBlockHeader.slot = s.slot := by
  obtain ⟨n,L,hL,-⟩ := h.represented
  exact hL.clock.symm

theorem OnChain.length {s : State} (h : OnChain s) :
    s.historicalBlockHashes.length = s.slot.get := by
  obtain ⟨n,L,hL,-⟩ := h.represented
  rw [hL.clock,hL.length]

theorem OnChain.slot_le {s : State} (h : OnChain s) : s.slot.get ≤ historicalRootsLimit := by
  obtain ⟨n,L,hL,hc⟩ := h.represented
  rw [← h.length,← hL.history,← hc.aligned,hL.justified,Bitlist.length_toList]
  exact s.justifiedSlots.len_le

theorem OnChain.order {s : State} (h : OnChain s) :
    s.latestFinalized.slot.get ≤ s.latestJustified.slot.get := by
  obtain ⟨n,L,hL,hc⟩ := h.represented
  rw [← hL.latestFinalized,← hL.latestJustified]
  exact hc.order

theorem OnChain.recorded {s : State} (h : OnChain s) {c : Checkpoint}
    (hc : c = s.latestJustified ∨ c = s.latestFinalized) (hpos : 0 < c.slot.get) :
    s.historicalBlockHashes[c.slot.get]? = some c.root := by
  obtain ⟨n,L,hL,hcons⟩ := h.represented
  have horder := hcons.order
  rcases hcons.checkpoints with ⟨-,hzero⟩ | ⟨hfin,hjust⟩
  · rw [hL.latestFinalized,hL.latestJustified] at horder
    rw [hL.latestJustified] at hzero
    rcases hc with rfl | rfl <;> omega
  · rw [← hL.history]
    rcases hc with rfl | rfl
    · rw [← hL.latestJustified]
      exact hjust.root
    · rw [← hL.latestFinalized]
      exact hfin.root

theorem OnChain.justified_le {s : State} (h : OnChain s) :
    s.latestJustified.slot.get ≤ s.slot.get := by
  rcases Nat.eq_zero_or_pos s.latestJustified.slot.get with hzero | hpos
  · omega
  · obtain ⟨hlt,-⟩ := List.getElem?_eq_some_iff.mp (h.recorded (.inl rfl) hpos)
    exact h.length ▸ Nat.le_of_lt hlt

structure Paired (b : Block) (s : State) : Prop where
  slot : s.slot = b.slot
  root : b.stateRoot = hashTreeRoot s
  chain : OnChain s

/-- `b`, tracked under `r`, was built on its parent: a tracked block of a smaller slot that
entered the order before it, whose post-state `b` leads from to its own. -/
structure Child (st : Store) (r : Bytes32) (b : Block) : Prop where
  parent : ∃ p ps s, st.blocks[b.parentRoot]? = some p ∧ st.states[b.parentRoot]? = some ps ∧
    st.states[r]? = some s ∧ p.slot.get < b.slot.get ∧
    ∀ signed : SignedBlockWithAttestation, signed.message.block = b →
      ps.stateTransition signed true = .ok s
  earlier : st.blockOrder.idxOf b.parentRoot < st.blockOrder.idxOf r

/-- The pairs of a store hang together on its anchor. The anchor's own parent is nothing, or
a lower block that the node held before a restart. -/
structure Linked (held : List Block) (anchor : Bytes32) (st : Store) : Prop where
  first : st.blockOrder.head? = some anchor
  nodup : st.blockOrder.Nodup
  ordered : ∀ {r}, r ∈ st.blockOrder ↔ r ∈ st.blocks
  stated : ∀ {r}, r ∈ st.states ↔ r ∈ st.blocks
  kept : ∀ {r : Bytes32} {b : Block}, st.blocks[r]? = some b → b ∈ held
  keyed : ∀ {r : Bytes32} {b : Block}, st.blocks[r]? = some b → hashTreeRoot b = r
  paired : ∀ {r : Bytes32} {b : Block} {s : State}, st.blocks[r]? = some b →
    st.states[r]? = some s → Paired b s
  tracked : anchor ∈ st.blocks
  lowest : ∀ {a : Block} {r : Bytes32} {b : Block}, st.blocks[anchor]? = some a →
    st.blocks[r]? = some b → a.slot.get ≤ b.slot.get
  outside : ∀ {a : Block}, st.blocks[anchor]? = some a → a.parentRoot = ByteVector.zero ∨
    ∃ p ∈ held, hashTreeRoot p = a.parentRoot ∧ p.slot.get < a.slot.get
  child : ∀ {r : Bytes32} {b : Block}, st.blocks[r]? = some b → r ≠ anchor → Child st r b

theorem Linked.state {held : List Block} {anchor r : Bytes32} {st : Store} {b : Block}
    (h : Linked held anchor st) (hb : st.blocks[r]? = some b) :
    ∃ s, st.states[r]? = some s ∧ Paired b s := by
  obtain ⟨s,hs⟩ := get_of_mem (h.stated.mpr (mem_of_get hb))
  exact ⟨s,hs,h.paired hb hs⟩

theorem Linked.mono {held held' : List Block} {anchor : Bytes32} {st : Store}
    (h : Linked held anchor st) (hsub : ∀ b ∈ held, b ∈ held') : Linked held' anchor st :=
  { h with
    kept := fun hb => hsub _ (h.kept hb)
    outside := fun ha => (h.outside ha).imp id fun ⟨p,hp,hrest⟩ => ⟨p,hsub p hp,hrest⟩ }

theorem Linked.sameTree {held : List Block} {anchor : Bytes32} {st t : Store}
    (h : Linked held anchor st) (hsame : SameTree st t) : Linked held anchor t := by
  obtain ⟨hblocks,hstates,horder,-,-⟩ := hsame
  have hchild : ∀ {r b}, Child st r b → Child t r b := by
    intro r b hc
    exact ⟨by rw [hblocks,hstates]; exact hc.parent,by rw [horder]; exact hc.earlier⟩
  constructor
  · rw [horder]; exact h.first
  · rw [horder]; exact h.nodup
  · rw [horder,hblocks]; exact h.ordered
  · rw [hstates,hblocks]; exact h.stated
  · rw [hblocks]; exact h.kept
  · rw [hblocks]; exact h.keyed
  · rw [hblocks,hstates]; exact h.paired
  · rw [hblocks]; exact h.tracked
  · rw [hblocks]; exact h.lowest
  · rw [hblocks]; exact h.outside
  · rw [hblocks]; exact fun hb hne => hchild (h.child hb hne)

theorem Linked.transition {held : List Block} {anchor : Bytes32} {st : Store} {block : Block}
    {parent post : State} (h : Linked held anchor st)
    (hparent : st.states[block.parentRoot]? = some parent)
    (hassembled : Assembled parent block post) (hroot : block.stateRoot = hashTreeRoot post) :
    ∃ p, st.blocks[block.parentRoot]? = some p ∧ Paired p parent ∧
      ∀ signed : SignedBlockWithAttestation, signed.message.block = block →
        parent.stateTransition signed true = .ok post := by
  obtain ⟨p,hp⟩ := get_of_mem (h.stated.mp (mem_of_get hparent))
  have hpair := h.paired hp hparent
  refine ⟨p,hp,hpair,?_⟩
  rintro signed rfl
  exact hassembled.stateTransition hpair.chain.clock hroot

theorem Child.tracking {st : Store} {root r : Bytes32} {block b : Block} {post : State}
    (hnew : root ∉ st.blocks) (hordered : ∀ {r}, r ∈ st.blockOrder ↔ r ∈ st.blocks)
    (hr : r ∈ st.blocks) (h : Child st r b) : Child (st.tracking root block post) r b := by
  have hget := getElem?_tracking hnew block post
  obtain ⟨-,-,horder,-⟩ := tracking_new hnew block post
  obtain ⟨p,ps,s,hp,hps,hs,hrest⟩ := h.parent
  have hkeep : ∀ {x}, x ∈ st.blocks → root ≠ x := fun hx heq => hnew (heq ▸ hx)
  refine ⟨⟨p,ps,s,?_,?_,?_,hrest⟩,?_⟩
  · rw [(hget _).1,if_neg (hkeep (mem_of_get hp)),hp]
  · rw [(hget _).2,if_neg (hkeep (mem_of_get hp)),hps]
  · rw [(hget _).2,if_neg (hkeep hr),hs]
  · rw [horder,List.idxOf_append_of_mem (hordered.mpr (mem_of_get hp)),
      List.idxOf_append_of_mem (hordered.mpr hr)]
    exact h.earlier

theorem Linked.track {held : List Block} {anchor : Bytes32} {st : Store} {block : Block}
    {parent post : State} (h : Linked held anchor st)
    (hparent : st.states[block.parentRoot]? = some parent)
    (hassembled : Assembled parent block post) (hroot : block.stateRoot = hashTreeRoot post)
    (hnew : hashTreeRoot block ∉ st.blocks) (hheld : block ∈ held) :
    Linked held anchor (st.tracking (hashTreeRoot block) block post) := by
  obtain ⟨p,hp,hpair,htrans⟩ := h.transition hparent hassembled hroot
  have hstep := htrans ⟨⟨block,default⟩,[]⟩ rfl
  obtain ⟨⟨_,hext⟩,-⟩ := stateTransition_extends hstep
  have hlater : p.slot.get < block.slot.get := hpair.slot ▸ hext.later
  have hget := getElem?_tracking hnew block post
  obtain ⟨hblocks,hstates,horder,-⟩ := tracking_new hnew block post
  have hkeep : ∀ {x}, x ∈ st.blocks → hashTreeRoot block ≠ x := fun hx heq => hnew (heq ▸ hx)
  have hne : hashTreeRoot block ≠ anchor := hkeep h.tracked
  have hanchor : ∀ {a}, (st.tracking (hashTreeRoot block) block post).blocks[anchor]? = some a →
      st.blocks[anchor]? = some a := by
    intro a ha
    rwa [(hget anchor).1,if_neg hne] at ha
  constructor
  · rw [horder,List.head?_append,h.first]
    rfl
  · rw [horder,List.nodup_append]
    refine ⟨h.nodup,List.nodup_singleton _,?_⟩
    intro x hx y hy
    rw [List.mem_singleton.mp hy]
    exact (hkeep (h.ordered.mp hx)).symm
  · intro r
    rw [horder,hblocks,List.mem_append,List.mem_singleton,h.ordered,Std.ExtTreeMap.mem_insert,
      Std.LawfulEqCmp.compare_eq_iff_eq,or_comm,eq_comm (a := r)]
  · intro r
    rw [hstates,hblocks]
    simp [h.stated]
  · intro r b hb
    rcases of_blocks_tracking hnew hb with ⟨-,rfl⟩ | ⟨-,hb⟩
    · exact hheld
    · exact h.kept hb
  · intro r b hb
    rcases of_blocks_tracking hnew hb with ⟨heq,rfl⟩ | ⟨-,hb⟩
    · exact heq
    · exact h.keyed hb
  · intro r b s hb hs
    rcases of_blocks_tracking hnew hb with ⟨rfl,rfl⟩ | ⟨hne,hb⟩
    · rw [(hget _).2,if_pos rfl] at hs
      obtain rfl := Option.some.inj hs
      exact ⟨hext.slot,hroot,hpair.chain.next hstep⟩
    · rw [(hget _).2,if_neg hne] at hs
      exact h.paired hb hs
  · rw [hblocks]
    exact Std.ExtTreeMap.mem_insert.mpr (.inr h.tracked)
  · intro a r b ha hb
    rcases of_blocks_tracking hnew hb with ⟨-,rfl⟩ | ⟨-,hb⟩
    · exact (h.lowest (hanchor ha) hp).trans (Nat.le_of_lt hlater)
    · exact h.lowest (hanchor ha) hb
  · intro a ha
    exact h.outside (hanchor ha)
  · intro r b hb hr
    rcases of_blocks_tracking hnew hb with ⟨rfl,rfl⟩ | ⟨-,hb⟩
    · refine ⟨⟨p,parent,post,?_,?_,?_,hlater,htrans⟩,?_⟩
      · rw [(hget _).1,if_neg (hkeep (mem_of_get hp)),hp]
      · rw [(hget _).2,if_neg (hkeep (mem_of_get hp)),hparent]
      · rw [(hget _).2,if_pos rfl]
      · have hin := h.ordered.mpr (mem_of_get hp)
        have hout : hashTreeRoot block ∉ st.blockOrder := fun hx => hnew (h.ordered.mp hx)
        have hlt := List.idxOf_lt_length_iff.mpr hin
        rw [horder,List.idxOf_append_of_mem hin,List.idxOf_append_of_notMem hout]
        omega
    · exact (h.child hb hr).tracking hnew h.ordered (mem_of_get hb)

theorem Linked.writes {held : List Block} {anchor : Bytes32} {st t : Store}
    (h : Linked held anchor st) (hwrites : Writes st t)
    (hkept : ∀ {r : Bytes32} {b : Block}, t.blocks[r]? = some b → b ∈ held) :
    Linked held anchor t := by
  induction hwrites with
  | refl => exact h
  | tail _ hwrite ih =>
    cases hwrite with
    | touch htouch =>
      have hsame := htouch.sameTree
      exact (ih (by rw [← hsame.blocks]; exact hkept)).sameTree hsame
    | track hasParent assembled root isNew =>
      obtain ⟨hearlier,hheld⟩ := kept_of_tracking isNew hkept
      exact (ih hearlier).track hasParent assembled root isNew hheld

theorem Child.history {st : Store} {r : Bytes32} {b : Block} {s : State} (h : Child st r b)
    (hs : st.states[r]? = some s) :
    ∃ ps, st.states[b.parentRoot]? = some ps ∧ ∃ n, s.historicalBlockHashes =
      ps.historicalBlockHashes ++ b.parentRoot :: List.replicate n ByteVector.zero := by
  obtain ⟨p,ps,s',-,hps,hs',-,htrans⟩ := h.parent
  obtain rfl : s' = s := by simpa [hs] using hs'.symm
  obtain ⟨⟨root,hext⟩,-⟩ := stateTransition_extends (htrans ⟨⟨b,default⟩,[]⟩ rfl)
  refine ⟨ps,hps,ps.gap b,?_⟩
  rw [hext.history,hext.fits.parent]
  rfl

/-- Every root the history records from the anchor's slot on is an ancestor of the block, at
the slot it is recorded under. -/
theorem Linked.traces {held : List Block} {anchor : Bytes32} {st : Store} {a : Block}
    (h : Linked held anchor st) (ha : st.blocks[anchor]? = some a) {r : Bytes32} {b : Block}
    {s : State} (hb : st.blocks[r]? = some b) (hs : st.states[r]? = some s) {i : Nat}
    {root : Bytes32} (hi : s.historicalBlockHashes[i]? = some root) (hroot : root ≠ ByteVector.zero)
    (hlow : a.slot.get ≤ i) :
    ∃ c, st.blocks[root]? = some c ∧ c.slot.get = i ∧
      AncestorOrSelf (parentLink st.blocks) root r := by
  -- Strong induction on the block's slot; the parent's slot is smaller.
  induction hn : b.slot.get using Nat.strong_induction_on generalizing r b s with
  | _ n ih =>
    have hlen := (h.paired hb hs).chain.length
    rw [(h.paired hb hs).slot] at hlen
    by_cases hanchor : r = anchor
    · -- Nothing is recorded from the anchor's own slot on.
      obtain rfl : a = b := by simpa [hanchor,ha] using hb
      rw [List.getElem?_eq_none (by omega)] at hi
      cases hi
    · have hchild := h.child hb hanchor
      obtain ⟨ps,hps,gap,hhist⟩ := hchild.history hs
      obtain ⟨p,_,_,hp,-,-,hlt,-⟩ := hchild.parent
      have hplen := (h.paired hp hps).chain.length
      rw [(h.paired hp hps).slot] at hplen
      rw [hhist] at hi
      rcases Nat.lt_trichotomy i p.slot.get with hbelow | hat | habove
      · rw [List.getElem?_append_left (by omega)] at hi
        obtain ⟨c,hc,hslot,hanc⟩ := ih p.slot.get (hn ▸ hlt) hp hps hi rfl
        exact ⟨c,hc,hslot,.up (parentLink_of_get hb) hanc⟩
      · obtain rfl : b.parentRoot = root := by simpa [← hplen,hat] using hi
        exact ⟨p,hp,hat.symm,.up (parentLink_of_get hb) (.self (parentLink_of_get hp))⟩
      · rw [List.getElem?_append_right (by omega),List.getElem?_cons,if_neg (by omega)] at hi
        exact absurd (List.eq_of_mem_replicate (List.mem_of_getElem? hi)) hroot

/-- A checkpoint of a tracked post-state, unless it is below the anchor or carries the zero
root, names a tracked ancestor by its slot. -/
theorem Linked.checkpoint {held : List Block} {anchor : Bytes32} {st : Store} {a : Block}
    (h : Linked held anchor st) (ha : st.blocks[anchor]? = some a) {r : Bytes32} {s : State}
    (hs : st.states[r]? = some s) {c : Checkpoint}
    (hc : c = s.latestJustified ∨ c = s.latestFinalized) (hroot : c.root ≠ ByteVector.zero)
    (hlow : a.slot.get ≤ c.slot.get) (hpos : 0 < c.slot.get) :
    ∃ b, st.blocks[c.root]? = some b ∧ b.slot = c.slot ∧
      AncestorOrSelf (parentLink st.blocks) c.root r := by
  obtain ⟨b,hb⟩ := get_of_mem (h.stated.mp (mem_of_get hs))
  have hrec := (h.paired hb hs).chain.recorded hc hpos
  obtain ⟨cb,hcb,hslot,hanc⟩ := h.traces ha hb hs hrec hroot hlow
  exact ⟨cb,hcb,Slot.ext_get hslot,hanc⟩

/-- The hash is collision-free on the blocks held, and gives none of them the zero root. -/
structure Sound (held : List Block) : Prop where
  nonzero : ∀ b ∈ held, hashTreeRoot b ≠ ByteVector.zero
  injective : ∀ b ∈ held, ∀ b' ∈ held, hashTreeRoot b = hashTreeRoot b' → b = b'

instance (held : List Block) : Decidable (Sound held) :=
  decidable_of_iff ((∀ b ∈ held, hashTreeRoot b ≠ ByteVector.zero) ∧
    ∀ b ∈ held, ∀ b' ∈ held, hashTreeRoot b = hashTreeRoot b' → b = b')
    ⟨fun h => ⟨h.1,h.2⟩,fun h => ⟨h.nonzero,h.injective⟩⟩

theorem Sound.mono {held held' : List Block} (h : Sound held') (hsub : ∀ b ∈ held, b ∈ held') :
    Sound held :=
  ⟨fun b hb => h.nonzero b (hsub b hb),
    fun b hb b' hb' => h.injective b (hsub b hb) b' (hsub b' hb')⟩

theorem Linked.nonzero {held : List Block} {anchor r : Bytes32} {st : Store}
    (h : Linked held anchor st) (hsound : Sound held) (hr : r ∈ st.blocks) :
    r ≠ ByteVector.zero := by
  obtain ⟨b,hb⟩ := get_of_mem hr
  exact h.keyed hb ▸ hsound.nonzero b (h.kept hb)

/-- With a sound hash the parent of the anchor is not tracked, so the walks of the fork
choice see a tree. -/
theorem Linked.planted {held : List Block} {anchor : Bytes32} {st : Store}
    (h : Linked held anchor st) (hsound : Sound held) : Planted st.blocks anchor := by
  refine ⟨h.tracked,?_,?_⟩
  · intro a ha hin
    obtain ⟨q,hq⟩ := get_of_mem hin
    rcases h.outside ha with hzero | ⟨p,hp,hroot,hlt⟩
    · exact h.nonzero hsound hin hzero
    · obtain rfl := hsound.injective p hp q (h.kept hq) (hroot.trans (h.keyed hq).symm)
      exact absurd (h.lowest ha hq) (Nat.not_le.mpr hlt)
  · intro r b hb hr
    obtain ⟨p,_,_,hp,-,-,hlt,-⟩ := (h.child hb hr).parent
    exact ⟨p,hp,hlt⟩

theorem linked_seed {held : List Block} {t : Store} {block : Block} {state : State}
    {checkpoints : Bytes32 → Slot → Checkpoint × Checkpoint}
    (hopen : Store.seedAnchor state block checkpoints = .ok t) (hslot : state.slot = block.slot)
    (hchain : OnChain state) (hheld : block ∈ held)
    (houtside : block.parentRoot = ByteVector.zero ∨
      ∃ p ∈ held, hashTreeRoot p = block.parentRoot ∧ p.slot.get < block.slot.get) :
    Linked held (hashTreeRoot block) t := by
  obtain ⟨hroot,time,rfl⟩ := seedAnchor_ok hopen
  have hblock : ∀ {r : Bytes32} {b : Block},
      ((∅ : Blocks).insert (hashTreeRoot block) block)[r]? = some b →
        hashTreeRoot block = r ∧ block = b := by
    intro r b hb
    simpa [Std.ExtTreeMap.getElem?_insert] using hb
  constructor
  · rfl
  · exact List.nodup_singleton _
  · intro r
    simp [eq_comm (a := r)]
  · intro r
    simp
  · intro r b hb
    obtain ⟨-,rfl⟩ := hblock hb
    exact hheld
  · intro r b hb
    obtain ⟨hr,rfl⟩ := hblock hb
    exact hr
  · intro r b s hb hs
    obtain ⟨rfl,rfl⟩ := hblock hb
    obtain rfl : state = s := by simpa using hs
    exact ⟨hslot,hroot,hchain⟩
  · simp
  · intro a r b ha hb
    obtain ⟨-,rfl⟩ := hblock ha
    obtain ⟨-,rfl⟩ := hblock hb
    exact Nat.le_refl _
  · intro a ha
    obtain ⟨-,rfl⟩ := hblock ha
    exact houtside
  · intro r b hb hr
    exact absurd (hblock hb).1.symm hr

theorem mem_values_genesis {genesisTime : UInt64} {validators : Validators} {g : Store}
    (hopen : Store.fromAnchor (genesisState genesisTime validators)
      (genesisAnchorBlock (genesisState genesisTime validators)) = .ok g) :
    genesisAnchorBlock (genesisState genesisTime validators) ∈ Tables.values g.blocks := by
  obtain ⟨-,time,rfl⟩ := seedAnchor_ok hopen
  exact Tables.mem_values.mpr ⟨_,Std.ExtTreeMap.getElem?_insert_self⟩

theorem linked_genesis {held : List Block} {genesisTime : UInt64} {validators : Validators}
    {g : Store} (hopen : Store.fromAnchor (genesisState genesisTime validators)
      (genesisAnchorBlock (genesisState genesisTime validators)) = .ok g)
    (hheld : genesisAnchorBlock (genesisState genesisTime validators) ∈ held) :
    Linked held (hashTreeRoot (genesisAnchorBlock (genesisState genesisTime validators))) g :=
  linked_seed hopen rfl (onChain_genesis _ _) hheld (.inl rfl)

theorem Linked.resume {held : List Block} {anchor root : Bytes32} {st t : Store} {block : Block}
    {state : State} (h : Linked held anchor st) (hblock : st.blocks[root]? = some block)
    (hstate : st.states[root]? = some state)
    (hopen : Store.fromTrustedHead state block = .ok t) : Linked held root t := by
  have hpair := h.paired hblock hstate
  rw [← h.keyed hblock]
  refine linked_seed hopen hpair.slot hpair.chain (h.kept hblock) ?_
  by_cases hroot : root = anchor
  · exact h.outside (hroot ▸ hblock)
  · obtain ⟨p,_,_,hp,-,-,hlt,-⟩ := (h.child hblock hroot).parent
    exact .inr ⟨p,h.kept hp,h.keyed hp,hlt⟩

theorem Linked.reopens {held : List Block} {anchor root : Bytes32} {st : Store} {block : Block}
    {state : State} (h : Linked held anchor st) (hblock : st.blocks[root]? = some block)
    (hstate : st.states[root]? = some state) :
    ∃ t, Store.fromTrustedHead state block = .ok t ∧ t.head = root := by
  have hpair := h.paired hblock hstate
  have hslot : block.slot.get ≤ 262144 := hpair.slot ▸ hpair.chain.slot_le
  have htime : block.slot.get*intervalsPerSlot < 2^64 := by
    simp only [intervalsPerSlot]
    omega
  have hopen : ∃ t, Store.fromTrustedHead state block = .ok t :=
    ⟨_,guard_ok.mpr ⟨not_not.mpr hpair.root,dif_pos htime⟩⟩
  obtain ⟨t,ht⟩ := hopen
  refine ⟨t,ht,?_⟩
  obtain ⟨-,time,rfl⟩ := seedAnchor_ok ht
  exact h.keyed hblock

theorem Linked.handle {held : List Block} {anchor : Bytes32} {st : Store}
    (h : Linked held anchor st) (e : Event)
    (hkept : ∀ {r : Bytes32} {b : Block}, (handle e st).blocks[r]? = some b → b ∈ held) :
    Linked held anchor (handle e st) := by
  cases hg : e.gossip with
  | none => exact h.writes (handle_settles hg st).writes hkept
  | some vote =>
    rcases handle_gossip hg st with heq | ⟨-,heq⟩
    · rw [heq]
      exact h
    · rw [heq]
      exact h.sameTree ⟨rfl,rfl,rfl,rfl,rfl⟩

theorem Lives.linked {held : List Block} {st : Store} (h : Lives held st) :
    ∃ anchor, Linked held anchor st := by
  refine h.rule (fun held st => ∃ anchor, Linked held anchor st) ?_ ?_
  · intro genesisTime validators g hopen
    exact ⟨_,linked_genesis hopen (mem_values_genesis hopen)⟩
  · intro held st action out t hst hstep
    obtain ⟨anchor,hlinked⟩ := hst
    have hmono := hlinked.mono fun b hb => List.mem_append_left out hb
    cases hstep with
    | event e =>
      refine ⟨anchor,hmono.handle e ?_⟩
      intro r b hb
      exact List.mem_append_right _ (Tables.mem_values.mpr ⟨r,hb⟩)
    | resume hasBlock hasState opens => exact ⟨_,hmono.resume hasBlock hasState opens⟩

end

end Devnet.Engine
