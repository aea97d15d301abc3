import SimpleBasicComponents.MemoryPool.Blocks
import Mathlib.Data.List.Pairwise

/-!
Where the memory pool puts what it hands out.

Owns: the ranges handed out since the last reset as read off the events, what is
taken of the blocks that `posix_memalign` gives, the placement of the ranges, the
invariant behind it, and what carving a node and adding a block do to that.
-/

namespace SimpleBasicComponents.MemoryPool

open SimpleBasicComponents.Semantics

/-! ### Reading the events -/

def noteCarved : List Range → Event → List Range
  | handed, .carved addr size => ⟨addr.toNat, size.toNat⟩ :: handed
  | _, .rewound => []
  | handed, _ => handed

/-- The ranges returned for sizes of at most `pool->max` since the last
`mp_reset_pool`, the headers of the large blocks among them. -/
def carved (events : List Event) : List Range := events.foldl noteCarved []

def noteLarge : List Range → Event → List Range
  | handed, .large addr size => ⟨addr.toNat, size.toNat⟩ :: handed
  | _, .rewound => []
  | handed, _ => handed

/-- The large blocks obtained since the last `mp_reset_pool`. -/
def larges (events : List Event) : List Range := events.foldl noteLarge []

namespace Event

def blockRange : Event → Option Range
  | .block addr size => some ⟨addr.toNat, size.toNat⟩
  | _ => none

/-- The memory obtained from `malloc` or `posix_memalign`. -/
def obtained : Event → Option Range
  | .block addr size => some ⟨addr.toNat, size.toNat⟩
  | .large addr size => some ⟨addr.toNat, size.toNat⟩
  | _ => none

/-- The events do not obtain memory twice, one of the times for the chain. -/
def Apart (left right : Event) : Prop :=
  ∀ first ∈ left.obtained, ∀ second ∈ right.obtained,
    left.blockRange.isSome ∨ right.blockRange.isSome → first.Apart second

instance (left right : Event) : Decidable (left.Apart right) := by
  unfold Apart
  infer_instance

/-- A block is aligned, an object of the language in size, and it has an end. -/
def Sound : Event → Prop
  | .block addr size =>
      32 ∣ addr.toNat ∧ size.toNat < 2 ^ 63 ∧ addr.toNat + size.toNat < 2 ^ 64
  | _ => True

instance : (event : Event) → Decidable event.Sound
  | .block _ _ => by
      unfold Sound
      infer_instance
  | .large _ _ | .carved _ _ | .zeroed _ _ | .released _ | .freedBlock _ | .rewound
  | .returned _ => isTrue trivial

theorem Apart.symm {left right : Event} (apart : left.Apart right) : right.Apart left := by
  intro first isFirst second isSecond oneBlock
  exact (apart second isSecond first isFirst oneBlock.symm).symm

instance : Std.Symm Event.Apart := ⟨fun _ _ => Apart.symm⟩

end Event

/-- The blocks of the chain, the first one of the pool included. -/
def blocks (events : List Event) : List Range := events.filterMap Event.blockRange

/-- What the chain needs of the blocks that `posix_memalign` gave for it. -/
structure BlocksGranted (events : List Event) : Prop where
  sound : ∀ event ∈ events, event.Sound
  apart : (blocks events).Pairwise Range.Apart

theorem BlocksGranted.earlier {before events : List Event} (granted : BlocksGranted events)
    (isPrefix : before <+: events) : BlocksGranted before :=
  ⟨fun event member => granted.sound event (isPrefix.subset member),
    granted.apart.sublist (isPrefix.sublist.filterMap _)⟩

/-- What is taken of the blocks that `posix_memalign` gave: each is aligned and
meets nothing else obtained from the system. -/
structure Granted (events : List Event) : Prop where
  sound : ∀ event ∈ events, event.Sound
  apart : events.Pairwise Event.Apart

theorem Granted.earlier {before events : List Event} (granted : Granted events)
    (isPrefix : before <+: events) : Granted before :=
  ⟨fun event member => granted.sound event (isPrefix.subset member),
    granted.apart.sublist isPrefix.sublist⟩

theorem Granted.blocksGranted {events : List Event} (granted : Granted events) :
    BlocksGranted events := by
  refine ⟨granted.sound, ?_⟩
  unfold blocks
  rw [List.pairwise_filterMap]
  apply granted.apart.imp
  intro left right apart first isFirst second isSecond
  have obtains {event : Event} {range : Range} (isBlock : event.blockRange = some range) :
      range ∈ event.obtained := by
    cases event with
    | block => exact isBlock
    | large | carved | zeroed | released | freedBlock | rewound | returned => contradiction
  exact apart first (obtains isFirst) second (obtains isSecond) (.inl (by rw [isFirst]; rfl))

/-- What `mp_create_pool(size)` obtains. -/
def created (size base : UInt64) : Event := .block base (size + sizeofPool + sizeofNode)

/-- An aligned block has room for the head of the pool before the memory ends. -/
theorem header_toNat {base : UInt64} (multiple : 32 ∣ base.toNat) :
    (base + sizeofPool).toNat = base.toNat + 24 := by
  have bound := base.toNat_lt
  rw [UInt64.toNat_add]
  show (base.toNat + 24) % 2 ^ 64 = _
  omega

/-- Where the parts of the first block are. -/
structure FirstBlock (size base : UInt64) : Prop where
  whole : (size + sizeofPool + sizeofNode).toNat = size.toNat + 56
  header : (base + sizeofPool).toNat = base.toNat + 24
  first : (base + sizeofPool + sizeofNode).toNat = base.toNat + 56
  atEnd : (base + sizeofPool + sizeofNode + size).toNat = base.toNat + 56 + size.toNat

theorem BlocksGranted.firstBlock {size base : UInt64} {events : List Event}
    (granted : BlocksGranted (created size base :: events)) (accepted : size.toNat + 56 < 2 ^ 64) :
    FirstBlock size base := by
  have sound : (created size base).Sound := granted.sound _ List.mem_cons_self
  have ends : base.toNat + (size + sizeofPool + sizeofNode).toNat < 2 ^ 64 := sound.2.2
  have whole : (size + sizeofPool + sizeofNode).toNat = size.toNat + 56 := by
    rw [UInt64.toNat_add, UInt64.toNat_add]
    show ((size.toNat + 24) % 2 ^ 64 + 32) % 2 ^ 64 = _
    omega
  have header := header_toNat sound.1
  have first : (base + sizeofPool + sizeofNode).toNat = base.toNat + 56 := by
    rw [UInt64.toNat_add, header]
    show (base.toNat + 24 + 32) % 2 ^ 64 = _
    omega
  refine ⟨whole, header, first, ?_⟩
  rw [UInt64.toNat_add, first]
  omega

/-- Every range lies in a block behind its header, no two meet, none meets a large
block, and the cursors are inside their blocks. -/
structure Placed (pool : Pool) (events : List Event) : Prop where
  inside : pool.Inside
  owned : ∀ range ∈ carved events, ∃ node ∈ pool.chain,
    node.addr.toNat + 32 ≤ range.start ∧ range.stop ≤ node.endPtr.toNat
  apart : (carved events).Pairwise Range.Apart
  fromLarge : ∀ range ∈ carved events, ∀ block ∈ larges events, range.Apart block

/-- The chain is placed as long as the pool is not destroyed. -/
def PlacedWhileOpen (session : Option Pool) (events : List Event) : Prop :=
  ∀ pool, session = some pool → Placed pool events

instance (pool : Pool) : Decidable pool.Inside := by
  unfold Pool.Inside
  infer_instance

instance (pool : Pool) (events : List Event) : Decidable (Placed pool events) :=
  decidable_of_iff
    (pool.Inside ∧
      (∀ range ∈ carved events, ∃ node ∈ pool.chain,
        node.addr.toNat + 32 ≤ range.start ∧ range.stop ≤ node.endPtr.toNat) ∧
      (carved events).Pairwise Range.Apart ∧
      ∀ range ∈ carved events, ∀ block ∈ larges events, range.Apart block)
    ⟨fun ⟨inside, owned, apart, fromLarge⟩ => ⟨inside, owned, apart, fromLarge⟩,
      fun placed => ⟨placed.inside, placed.owned, placed.apart, placed.fromLarge⟩⟩

instance : (session : Option Pool) → (events : List Event) →
    Decidable (PlacedWhileOpen session events)
  | none, _ => isTrue fun _ isOpen => by contradiction
  | some pool, events =>
      decidable_of_iff (Placed pool events)
        ⟨fun placed _ isOpen => Option.some.inj isOpen ▸ placed, fun placed => placed pool rfl⟩

/-! ### The invariant -/

/-- All nodes have the extent of the first, each lies in a block obtained for it,
and the chain is an arena that hands out the ranges. -/
structure Laid (size base : UInt64) (pool : Pool) (events : List Event) : Prop where
  accepted : size.toNat + 56 < 2 ^ 64
  max : pool.max = (mpCreatePool size base []).max
  owned : ∀ span ∈ pool.chain.map Node.span, span.2 - span.1 = size + sizeofNode ∧
    ∃ range ∈ blocks (created size base :: events),
      range.start ≤ span.1.toNat ∧ span.2.toNat ≤ range.stop
  tiled : Tiled (pool.chain.map Node.region) (carved events)

section

variable {size base : UInt64} {pool next : Pool} {events shown : List Event}

theorem carved_append (events shown : List Event) :
    carved (events ++ shown) = shown.foldl noteCarved (carved events) :=
  List.foldl_append

theorem blocks_append {range : Range} (member : range ∈ blocks events) :
    range ∈ blocks (events ++ shown) := by
  unfold blocks at member ⊢
  rw [List.filterMap_append]
  exact List.mem_append_left _ member

theorem max_le_size : (mpCreatePool size base []).max.toNat ≤ size.toNat := by
  unfold mpCreatePool
  simp only
  split
  · exact Nat.le_refl _
  · rename_i large
    exact UInt64.le_iff_toNat_le.mp (UInt64.not_lt.mp large)

theorem max_le_page : (mpCreatePool size base []).max.toNat ≤ 4095 := by
  unfold mpCreatePool
  simp only
  split
  · rename_i small
    exact Nat.le_of_lt (UInt64.lt_iff_toNat_lt.mp small)
  · decide

theorem Laid.inside (laid : Laid size base pool events) : pool.Inside := by
  intro node member
  exact laid.tiled.ordered _ (List.mem_map_of_mem member)

/-- Events that carve nothing and do not rewind change nothing. -/
theorem Laid.quiet (laid : Laid size base pool events)
    (silent : shown.foldl noteCarved (carved events) = carved events) :
    Laid size base pool (events ++ shown) := by
  refine ⟨laid.accepted, laid.max, ?_, ?_⟩
  · intro span member
    have ⟨extent, range, isBlock, inBlock⟩ := laid.owned span member
    exact ⟨extent, range, blocks_append isBlock, inBlock⟩
  · rw [carved_append, silent]
    exact laid.tiled

/-- Only the chain and the limit matter. -/
theorem Laid.sameChain (laid : Laid size base pool events) (chain : next.chain = pool.chain)
    (max : next.max = pool.max) : Laid size base next events :=
  ⟨laid.accepted, max.trans laid.max, chain ▸ laid.owned, chain ▸ laid.tiled⟩

private theorem larges_obtained (events : List Event) (handed : List Range) {range : Range}
    (member : range ∈ events.foldl noteLarge handed) :
    range ∈ handed ∨ ∃ addr size, Event.large addr size ∈ events ∧
      (Event.large addr size).obtained = some range := by
  induction events generalizing handed with
  | nil => exact .inl member
  | cons event events inductionHypothesis =>
      have later := inductionHypothesis _ member
      cases later with
      | inr found =>
          obtain ⟨addr, size, isLarge, same⟩ := found
          exact .inr ⟨addr, size, List.mem_cons_of_mem _ isLarge, same⟩
      | inl noted =>
          cases event with
          | large addr size =>
              cases List.mem_cons.mp noted with
              | inl same => exact .inr ⟨addr, size, List.mem_cons_self, by rw [same]; rfl⟩
              | inr before => exact .inl before
          | rewound => exact absurd noted List.not_mem_nil
          | block | carved | zeroed | released | freedBlock | returned => exact .inl noted

/-- The blocks of the chain are apart from the large blocks. -/
theorem Granted.apart_larges (granted : Granted (created size base :: events)) {owner block : Range}
    (isOwner : owner ∈ blocks (created size base :: events)) (isLarge : block ∈ larges events) :
    owner.Apart block := by
  have ⟨event, isEvent, owns⟩ := List.mem_filterMap.mp isOwner
  have ⟨addr, n, isObtained, obtains⟩ :=
    (larges_obtained events [] isLarge).resolve_left (by simp)
  have different : event ≠ Event.large addr n := by
    intro same
    rw [same] at owns
    contradiction
  have apart : event.Apart (Event.large addr n) :=
    granted.apart.forall isEvent (List.mem_cons_of_mem _ isObtained) different
  have obtainsOwner : owner ∈ event.obtained := by
    cases event with
    | block => exact owns
    | large | carved | zeroed | released | freedBlock | rewound | returned => contradiction
  exact apart owner obtainsOwner block obtains (.inl (by rw [owns]; rfl))

/-- Every range lies in a node behind its header. -/
theorem Laid.covered (laid : Laid size base pool events) : ∀ range ∈ carved events, ∃ node ∈ pool.chain,
    node.addr.toNat + 32 ≤ range.start ∧ range.stop ≤ node.endPtr.toNat := by
  intro range member
  have ⟨region, isRegion, covers⟩ := laid.tiled.covered range member
  have ⟨node, inChain, same⟩ := List.mem_map.mp isRegion
  have ordered := laid.tiled.ordered region isRegion
  refine ⟨node, inChain, ?_, ?_⟩
  · rw [← same] at covers
    exact covers.1
  · rw [← same] at covers ordered
    exact Nat.le_trans covers.2 ordered.2

/-- The invariant gives the placement. -/
theorem Laid.placed (laid : Laid size base pool events)
    (granted : Granted (created size base :: events)) : Placed pool events := by
  refine ⟨laid.inside, laid.covered, laid.tiled.disjoint, ?_⟩
  · intro range member block isLarge
    have ⟨region, isRegion, covers⟩ := laid.tiled.covered range member
    have ⟨node, inChain, same⟩ := List.mem_map.mp isRegion
    have ordered := laid.tiled.ordered region isRegion
    rw [← same] at covers ordered
    have ⟨_, owner, isOwner, starts, ends⟩ := laid.owned node.span (List.mem_map_of_mem inChain)
    have inOwner : range.Within owner := by
      have header : node.addr.toNat + 32 ≤ range.start := covers.1
      have cursor : range.stop ≤ node.last.toNat := covers.2
      have atEnd : node.last.toNat ≤ node.endPtr.toNat := ordered.2
      have startsBefore : owner.start ≤ node.addr.toNat := starts
      have endsAfter : node.endPtr.toNat ≤ owner.stop := ends
      exact ⟨by omega, by omega⟩
    exact (granted.apart_larges isOwner isLarge).within inOwner

end

/-! ### The search and new blocks -/

section

variable {size base request : UInt64} {pool : Pool} {events : List Event}

theorem short_of_owned {span : UInt64 × UInt64}
    (granted : BlocksGranted (created size base :: events))
    (owned : ∃ range ∈ blocks (created size base :: events),
      range.start ≤ span.1.toNat ∧ span.2.toNat ≤ range.stop) :
    span.2.toNat - span.1.toNat < 2 ^ 63 := by
  obtain ⟨range, isBlock, starts, ends⟩ := owned
  have ⟨event, isEvent, owns⟩ := List.mem_filterMap.mp isBlock
  have sound := granted.sound event isEvent
  cases event with
  | block addr n =>
      obtain rfl := Option.some.inj owns
      have short : n.toNat < 2 ^ 63 := sound.2.1
      unfold Range.stop at ends
      simp only at starts ends
      omega
  | large | carved | zeroed | released | freedBlock | rewound | returned => contradiction

/-- Serving a request from a node with room. -/
theorem Laid.carve (laid : Laid size base pool events) {front back : List Node}
    {node : Node} {m : UInt64} (before : pool.chain = front ++ node :: back) {next : Pool}
    (after : next.chain = front ++ { node with last := m + request } :: back)
    (max : next.max = pool.max) (above : node.last.toNat ≤ m.toNat)
    (fits : m.toNat + request.toNat ≤ node.endPtr.toNat) :
    Laid size base next (events ++ [.carved m request]) := by
  have bound := node.endPtr.toNat_lt
  have last : (m + request).toNat = m.toNat + request.toNat := by
    rw [UInt64.toNat_add]
    omega
  have spans : next.chain.map Node.span = pool.chain.map Node.span := by
    rw [before, after]
    simp [Node.span]
  refine ⟨laid.accepted, max.trans laid.max, ?_, ?_⟩
  · intro span member
    rw [spans] at member
    have ⟨extent, range, isBlock, inBlock⟩ := laid.owned span member
    exact ⟨extent, range, blocks_append isBlock, inBlock⟩
  · have tiled := laid.tiled
    rw [before, List.map_append, List.map_cons] at tiled
    have carvedTiled := tiled.carve ⟨m.toNat, request.toNat⟩ above fits
    rw [carved_append, after, List.map_append, List.map_cons]
    unfold Node.region at carvedTiled ⊢
    simp only [last]
    exact carvedTiled

/-- Where a new block ends, and what it serves first. -/
theorem newBlock_toNat {addr psize : UInt64} (multiple : 32 ∣ addr.toNat)
    (psizeNat : psize.toNat = size.toNat + 32) (ends : addr.toNat + psize.toNat < 2 ^ 64)
    (within : request.toNat ≤ size.toNat) :
    (mpAlignPtr (addr + sizeofNode)).toNat = addr.toNat + 32 ∧
      (mpAlignPtr (addr + sizeofNode) + request).toNat = addr.toNat + 32 + request.toNat ∧
      (addr + psize).toNat = addr.toNat + psize.toNat := by
  have header : (addr + sizeofNode).toNat = addr.toNat + 32 := by
    rw [UInt64.toNat_add]
    show (addr.toNat + 32) % 2 ^ 64 = _
    omega
  have aligned : (mpAlignPtr (addr + sizeofNode)).toNat = addr.toNat + 32 := by
    rw [mpAlignPtr_toNat, header]
    unfold roundUp
    omega
  refine ⟨aligned, ?_, ?_⟩
  · rw [UInt64.toNat_add, aligned]
    omega
  · rw [UInt64.toNat_add]
    omega

/-- Serving a request from a new block. -/
theorem Laid.newBlock (laid : Laid size base pool events) {addr psize m : UInt64}
    (extent : psize = size + sizeofNode) (aligned : m = mpAlignPtr (addr + sizeofNode))
    (small : request ≤ pool.max)
    (granted : BlocksGranted (created size base :: (events ++ [.block addr psize, .carved m request]))) :
    Laid size base
      (pool.append { addr := addr, last := m + request, endPtr := addr + psize, failed := 0 })
      (events ++ [.block addr psize, .carved m request]) := by
  have accepted := laid.accepted
  have sound : (Event.block addr psize).Sound := granted.sound _ (by simp)
  have multiple : 32 ∣ addr.toNat := sound.1
  have ends : addr.toNat + psize.toNat < 2 ^ 64 := sound.2.2
  have psizeNat : psize.toNat = size.toNat + 32 := by
    rw [extent, UInt64.toNat_add]
    show (size.toNat + 32) % 2 ^ 64 = _
    omega
  have smallNat : request.toNat ≤ size.toNat := by
    have limit := UInt64.le_iff_toNat_le.mp small
    rw [laid.max] at limit
    exact Nat.le_trans limit max_le_size
  have ⟨mNat, lastNat, endNat⟩ := newBlock_toNat multiple psizeNat ends smallNat
  rw [← aligned] at mNat lastNat
  refine ⟨accepted, (append_max _ _).trans laid.max, ?_, ?_⟩
  · intro span member
    rw [append_chain_map (fun _ => rfl)] at member
    cases List.mem_append.mp member with
    | inl earlier =>
        have ⟨same, range, isBlock, inBlock⟩ := laid.owned span earlier
        exact ⟨same, range, blocks_append isBlock, inBlock⟩
    | inr last =>
        rw [List.mem_singleton.mp last]
        refine ⟨?_, ⟨addr.toNat, psize.toNat⟩, ?_, Nat.le_refl _, ?_⟩
        · show addr + psize - addr = _
          rw [extent, UInt64.add_comm addr, UInt64.add_sub_cancel]
        · exact List.mem_filterMap.mpr ⟨.block addr psize, by simp, rfl⟩
        · show (addr + psize).toNat ≤ addr.toNat + psize.toNat
          exact Nat.le_of_eq endNat
  · have apart : ∀ other ∈ pool.chain.map Node.region,
        other.Apart ⟨addr.toNat + 32, addr.toNat + 32, addr.toNat + psize.toNat⟩ := by
      intro other isRegion
      have ordered := laid.tiled.ordered other isRegion
      have ⟨node, inChain, same⟩ := List.mem_map.mp isRegion
      rw [← same] at ordered ⊢
      have ⟨_, owner, isOwner, starts, stops⟩ := laid.owned node.span (List.mem_map_of_mem inChain)
      have pairs := granted.apart
      rw [← List.cons_append, blocks, List.filterMap_append, List.pairwise_append] at pairs
      have separate : owner.Apart ⟨addr.toNat, psize.toNat⟩ :=
        pairs.2.2 owner isOwner _ List.mem_cons_self
      have header : node.addr.toNat + 32 ≤ node.last.toNat := ordered.1
      have cursor : node.last.toNat ≤ node.endPtr.toNat := ordered.2
      have startsBefore : owner.start ≤ node.addr.toNat := starts
      have endsAfter : node.endPtr.toNat ≤ owner.stop := stops
      unfold Range.Apart Range.stop at separate
      unfold Range.stop at endsAfter
      unfold Region.Apart Node.region
      simp only at separate ⊢
      omega
    have extended := laid.tiled.extend _ ⟨Nat.le_refl _, by simp only; omega⟩ apart
    have served := extended.carve ⟨m.toNat, request.toNat⟩
      (by simp only; omega) (by unfold Range.stop; simp only; omega)
    rw [append_chain_map (fun _ => rfl), carved_append]
    unfold Node.region at served ⊢
    simp only [lastNat, endNat]
    unfold Region.advance Range.stop at served
    simp only [mNat] at served
    show Tiled _ (⟨m.toNat, request.toNat⟩ :: carved events)
    rw [mNat]
    exact served

end

end SimpleBasicComponents.MemoryPool
