import SimpleBasicComponents.MemoryPool.Ownership
import Mathlib.Algebra.Group.Nat.Defs

/-!
What `mp_create_pool` finds in the memory it obtains.

Owns: runs in memory beside runs on lists, and the proof that runs which end in
`mp_destory_pool` and keep their cursors inside visit and free the blocks of the
pool, whatever is written to the memory handed out, if and only if `head->next` was
found `NULL`.
-/

namespace SimpleBasicComponents.MemoryPool

open SimpleBasicComponents.Semantics

/-! ### Runs in memory -/

section

variable {size base : UInt64} {pool : Pool} {events : List Event} {trace shown : List Trace}

theorem mem_doneIn_iff {event : Event} : event ∈ doneIn shown ↔ .did event ∈ shown := by
  unfold doneIn
  rw [List.mem_filterMap]
  constructor
  · rintro ⟨seen, member, isEvent⟩
    cases seen with
    | did other =>
        obtain rfl := Option.some.inj isEvent
        exact member
    | visited node => contradiction
  · intro member
    exact ⟨.did event, member, rfl⟩

/-- Visits to nodes of the chain are visits to blocks obtained. -/
theorem visits_append (built : Built size base pool (doneIn trace)) (seen : SeenIn pool shown)
    (visits : Historically (fun earlier seen =>
      ∀ node, seen = .visited node → node ∈ createdOf (doneIn earlier)) trace) :
    Historically (fun earlier seen =>
      ∀ node, seen = .visited node → node ∈ createdOf (doneIn earlier)) (trace ++ shown) := by
  rw [historically_append_iff]
  refine ⟨visits, ?_⟩
  rintro earlier - later split node rfl
  have inChain := seen node (by rw [split]; simp)
  rw [built.tail_addr] at inChain
  rw [doneIn_append, createdOf_append]
  exact List.mem_append_left _ inChain

/-- A step that rewinds nothing. -/
theorem Owned.steady (owned : Owned trace) (built : Built size base pool (doneIn trace))
    (seen : SeenIn pool shown) (steady : Event.rewound ∉ doneIn shown) : Owned (trace ++ shown) := by
  refine ⟨visits_append built seen owned.visits, owned.resets.append ?_⟩
  rintro earlier - member rfl
  exact absurd (mem_doneIn_iff.mpr member) steady

/-- `mp_reset_pool` comes to the whole chain. -/
theorem Owned.rewound (owned : Owned trace) (built : Built size base pool (doneIn trace)) :
    Owned (trace ++ ((releaseLarge pool).map .did ++
      (pool.chain.tail.map Node.addr).map .visited ++ [.did .rewound])) := by
  have front : Owned (trace ++ ((releaseLarge pool).map .did ++
      (pool.chain.tail.map Node.addr).map .visited)) := by
    apply owned.steady built (seenIn_did.append (seenIn_visited fun _ member => member))
    rw [doneIn_append, doneIn_did, doneIn_visited, List.append_nil]
    exact steady_of_blockless (releaseLarge_blockless pool)
  have noBlocks : createdOf (releaseLarge pool) = [] := by
    unfold createdOf
    rw [spansOf_blockless (releaseLarge_blockless pool)]
    rfl
  rw [← List.append_assoc]
  refine ⟨?_, ?_⟩
  · rw [historically_snoc_iff]
    exact ⟨front.visits, fun node isVisit => by contradiction⟩
  · rw [historically_snoc_iff]
    refine ⟨front.resets, fun _ => ?_⟩
    rw [doneIn_append, doneIn_append, doneIn_did, doneIn_visited, List.append_nil, createdOf_append,
      noBlocks, List.append_nil, ← built.tail_addr, ← List.append_assoc]
    exact List.suffix_append _ _

/-- The run in memory goes along with the run on lists. -/
structure Accompanies (session : Option Image) (trace : List Trace) (pool : Option Pool)
    (events : List Event) : Prop where
  done : doneIn trace = events
  owned : Owned trace
  models : ∀ left, pool = some left → ∃ image, session = some image ∧ Models image left ∧
    image.handed = events.foldl noteHanded []
  closed : pool = none → session = none

theorem start_accompanies {nodes : Nodes} (granted : BlocksGranted [created size base])
    (accepted : size.toNat + 56 < 2 ^ 64) (null : (nodes (base + sizeofPool)).next = 0) :
    Accompanies (some (Image.mpCreatePool size base nodes)) [] (some (mpCreatePool size base [])) [] := by
  refine ⟨rfl, ⟨historically_nil, historically_nil⟩, ?_, fun closed => by contradiction⟩
  intro left same
  obtain rfl := Option.some.inj same
  refine ⟨_, rfl, ⟨rfl, rfl, rfl, rfl, linked_mpCreatePool null, ?_, List.pairwise_singleton _ _⟩, rfl⟩
  intro node member
  obtain rfl := List.mem_singleton.mp member
  have header := (granted.firstBlock accepted).header
  intro isNull
  have zero : (base + sizeofPool).toNat = 0 := congrArg UInt64.toNat isNull
  omega

/-- Only `mp_reset_pool` rewinds. -/
theorem steady_of_step {call : Call} {next : Option Pool} {shown : List Event}
    (kept : call.request ≠ .resetPool) (taken : step (some pool) call = some (next, shown)) :
    Event.rewound ∉ shown := by
  cases next with
  | some after => exact (step_extends kept taken).steady
  | none =>
      have released := steady_of_blockless (releaseLarge_blockless pool)
      have freed : Event.rewound ∉ pool.chain.tail.map fun node => Event.freedBlock node.addr := by
        intro member
        have ⟨node, _, same⟩ := List.mem_map.mp member
        contradiction
      rw [(step_closes taken).2]
      unfold mpDestoryPool
      rw [List.mem_append, List.mem_append, not_or, not_or]
      exact ⟨⟨released, freed⟩, by simp⟩

/-- A call keeps the run in memory beside the run on lists. -/
theorem Accompanies.step {image : Image} {fuel : Nat} {use : Use} {next : Option Pool}
    {shown : List Event} (beside : Accompanies (some image) trace (some pool) events)
    (built : Built size base pool events) (enough : pool.chain.length ≤ fuel)
    (taken : MemoryPool.step (some pool) use.call = some (next, shown))
    (distinct : ∀ after, next = some after → (after.chain.map Node.addr).Nodup)
    (clear : ∀ after, next = some after →
      Clear after ((events ++ shown).foldl noteHanded [])) :
    ∃ session seen, Image.step fuel (some image) use = some (session, seen) ∧
      Accompanies session (trace ++ seen) next (events ++ shown) := by
  obtain ⟨sameImage, isImage, models, handed⟩ := beside.models pool rfl
  obtain rfl := Option.some.inj isImage
  have handedAfter : (events ++ shown).foldl noteHanded [] = shown.foldl noteHanded image.handed := by
    rw [List.foldl_append, handed]
  have builtHere : Built size base pool (doneIn trace) := by
    rw [beside.done]
    exact built
  rw [handedAfter] at clear
  obtain ⟨session, seen, takes, follows⟩ := step_follows models enough taken distinct clear
  refine ⟨session, seen, takes, ?_, ?_, ?_, follows.closed⟩
  · rw [doneIn_append, beside.done, follows.done]
  · by_cases isReset : use.call.request = .resetPool
    · obtain ⟨left, resets, -, -⟩ := mpResetPool_matches models enough
      have taken : Image.left use (Image.mpResetPool fuel image) = some (session, seen) := by
        rw [← takes]
        unfold Image.step
        simp only [isReset]
      rw [resets] at taken
      obtain ⟨-, rfl⟩ := Prod.mk.inj (Option.some.inj taken)
      exact beside.owned.rewound builtHere
    · apply beside.owned.steady builtHere follows.seen
      rw [follows.done]
      exact steady_of_step isReset taken
  · intro after same
    obtain ⟨left, isLeft, modelsLeft, handedLeft⟩ := follows.models after same
    exact ⟨left, isLeft, modelsLeft, handedLeft.trans handedAfter.symm⟩

/-- Where no cursor of a run on lists rounds beyond the end of its block, the run in
memory goes along with it. -/
theorem exec_accompanied {nodes : Nodes} {fuel : Nat} (accepted : size.toNat + 56 < 2 ^ 64)
    (null : (nodes (base + sizeofPool)).next = 0) (uses : List Use) {session : Option Pool}
    (ran : (machine size base).Exec (uses.map Use.call) session events)
    (lent : Lent (created size base :: events))
    (guarded : (machine size base).Guarded CallInside (uses.map Use.call))
    (enough : uses.length ≤ fuel) :
    ∃ image trace, (Image.machine fuel size base nodes).Exec uses image trace ∧
      Accompanies image trace session events := by
  induction uses using List.reverseRecOn generalizing session events with
  | nil =>
      obtain ⟨rfl, rfl⟩ := ran.functional .start
      have grantedAtStart : BlocksGranted [created size base] := lent.blocksGranted
      exact ⟨_, _, .start, start_accompanies grantedAtStart accepted null⟩
  | append_singleton uses use inductionHypothesis =>
      have laid := exec_laid accepted ran lent.blocksGranted guarded
      rw [List.map_append, List.map_singleton] at ran guarded
      obtain ⟨before, earlier, shown, ranBefore, taken, rfl⟩ := ran.unsnoc
      rw [Machine.guarded_snoc_iff] at guarded
      rw [List.length_append, List.length_singleton] at enough
      have lentBefore : Lent (created size base :: earlier) :=
        lent.earlier ((List.prefix_cons_inj _).mpr (List.prefix_append _ _))
      obtain ⟨image, trace, ranImage, beside⟩ :=
        inductionHypothesis ranBefore lentBefore guarded.1 (Nat.le_of_succ_le enough)
      cases before with
      | none => contradiction
      | some pool =>
          obtain ⟨left, rfl, -, -⟩ := beside.models pool rfl
          obtain ⟨built, few, -⟩ := built_of_exec ranBefore pool rfl
          rw [List.length_map] at few
          have builtNext {after : Pool} (same : session = some after) :
              Built size base after (earlier ++ shown) := (built_of_exec ran after same).1
          obtain ⟨next, seen, takes, besideNext⟩ :=
            beside.step built (Nat.le_trans few enough) taken
              (fun after same => (builtNext same).distinct lent.blocksGranted accepted (laid after same).inside)
              (fun after same => (builtNext same).clear (laid after same) lent accepted)
          exact ⟨next, trace ++ seen, ranImage.step takes, besideNext⟩

/-! ### The end of a run -/

/-- No block is at the address of the pool. -/
theorem Built.base_not_created (built : Built size base pool events) (inside : pool.Inside)
    (granted : BlocksGranted (created size base :: events)) (accepted : size.toNat + 56 < 2 ^ 64) :
    base ∉ createdOf events := by
  intro member
  have ⟨rest, chain⟩ := chain_eq_head_cons pool
  have inBlocks := built.in_blocks granted accepted
  have apart := granted.apart
  rw [← built.tail_addr, chain] at member
  rw [chain] at inBlocks
  have ⟨node, inRest, isBase⟩ := List.mem_map.mp member
  have ⟨_, restIn⟩ := List.forall₂_cons.mp inBlocks
  obtain ⟨range, isBlock, spanIn⟩ := exists_of_forall₂ restIn inRest
  have fromBase : Range.Apart ⟨base.toNat, (size + sizeofPool + sizeofNode).toNat⟩ range :=
    (List.pairwise_cons.mp apart).1 range isBlock
  have whole := (granted.firstBlock accepted).whole
  have ordered := inside node (by rw [chain]; exact List.mem_cons_of_mem _ inRest)
  have header : node.addr.toNat + 32 ≤ node.last.toNat := ordered.1
  have cursor : node.last.toNat ≤ node.endPtr.toNat := ordered.2
  have starts : range.start ≤ node.addr.toNat := spanIn.1
  have stops : node.endPtr.toNat ≤ range.stop := spanIn.2
  have sameNat : node.addr.toNat = base.toNat := congrArg UInt64.toNat isBase
  unfold Range.Apart Range.stop at fromBase
  unfold Range.stop at stops
  simp only at fromBase
  omega

/-- `mp_destory_pool` frees the blocks obtained and the pool. -/
theorem freedOf_mpDestoryPool (built : Built size base pool events) :
    freedOf (mpDestoryPool pool) = createdOf events ++ [base] := by
  have atBase : pool.head.addr - sizeofPool = base := by
    rw [built.head_addr]
    exact UInt64.add_sub_cancel base sizeofPool
  have freed (nodes : List Node) :
      freedOf (nodes.map fun node => Event.freedBlock node.addr) = nodes.map Node.addr := by
    induction nodes with
    | nil => rfl
    | cons node nodes inductionHypothesis => exact congrArg (node.addr :: ·) inductionHypothesis
  unfold mpDestoryPool
  rw [freedOf_append, freedOf_append, freedOf_blockless (releaseLarge_blockless pool), freed,
    built.tail_addr, atBase]
  rfl

theorem createdOf_mpDestoryPool (pool : Pool) : createdOf (mpDestoryPool pool) = [] := by
  have freed (nodes : List Node) :
      spansOf (nodes.map fun node => Event.freedBlock node.addr) = [] := by
    induction nodes with
    | nil => rfl
    | cons node nodes inductionHypothesis => exact inductionHypothesis
  unfold mpDestoryPool createdOf
  rw [spansOf_append, spansOf_append, spansOf_blockless (releaseLarge_blockless pool), freed]
  rfl

/-- A run whose memory has `NULL` at `head->next` visits and frees its own blocks. -/
theorem ownBlocks_of_null {nodes : Nodes} {fuel : Nat} {uses : List Use}
    (accepted : size.toNat + 56 < 2 ^ 64) (null : (nodes (base + sizeofPool)).next = 0)
    (ran : (machine size base).Exec (uses.map Use.call) none events)
    (lent : Lent (created size base :: events))
    (guarded : (machine size base).Guarded CallInside (uses.map Use.call))
    (enough : uses.length ≤ fuel) :
    ∃ trace, (Image.machine fuel size base nodes).Exec uses none trace ∧ OwnBlocks base trace := by
  obtain ⟨image, trace, ranImage, beside⟩ :=
    exec_accompanied accepted null uses ran lent guarded enough
  obtain rfl := beside.closed rfl
  suffices ending : freedOf (doneIn trace) = createdOf (doneIn trace) ++ [base] ∧
      (freedOf (doneIn trace)).Nodup from
    ⟨trace, ranImage, beside.owned, ending.1, ending.2⟩
  generalize isCalls : uses.map Use.call = calls at ran guarded
  cases ran with
  | @step calls before _ earlier shown call ranBefore taken =>
      cases before with
      | none => contradiction
      | some pool =>
          obtain ⟨built, -, noneFreed⟩ := built_of_exec ranBefore pool rfl
          have grantedBefore : BlocksGranted (created size base :: earlier) :=
            lent.blocksGranted.earlier ((List.prefix_cons_inj _).mpr (List.prefix_append _ _))
          have laid := exec_laid accepted ranBefore grantedBefore (Machine.guarded_snoc_iff.mp guarded).1
          have inside := (laid pool rfl).inside
          obtain rfl := (step_closes taken).2
          have distinct := built.distinct grantedBefore accepted inside
          have fresh := built.base_not_created inside grantedBefore accepted
          have freed : freedOf (doneIn trace) = createdOf earlier ++ [base] := by
            rw [beside.done, freedOf_append, noneFreed, List.nil_append, freedOf_mpDestoryPool built]
          have obtained : createdOf (doneIn trace) = createdOf earlier := by
            rw [beside.done, createdOf_append, createdOf_mpDestoryPool, List.append_nil]
          rw [freed, obtained]
          refine ⟨rfl, ?_⟩
          have ⟨rest, chain⟩ := chain_eq_head_cons pool
          rw [chain, List.map_cons, List.nodup_cons] at distinct
          rw [← built.tail_addr, chain] at fresh ⊢
          rw [List.nodup_append]
          refine ⟨distinct.2, by simp, ?_⟩
          intro addr isCreated other isBase same
          rw [List.mem_singleton.mp isBase] at same
          exact fresh (same ▸ isCreated)

/-- `mp_destory_pool` of a new pool follows what is found at `head->next`. -/
theorem destroy_visits {nodes : Nodes} {fuel : Nat} {writes : UInt64 → NodeCell → NodeCell}
    (nonNull : (nodes (base + sizeofPool)).next ≠ 0)
    (ran : (Image.machine fuel size base nodes).Exec [⟨⟨.destoryPool, []⟩, writes⟩] none trace) :
    ∃ node rest, trace = .visited node :: rest := by
  obtain ⟨session, before, shown, ranBefore, taken, rfl⟩ :=
    @Machine.Exec.unsnoc _ _ _ _ [] _ _ _ ran
  obtain ⟨rfl, rfl⟩ := ranBefore.functional .start
  have found : ((Image.mpCreatePool size base nodes).nodes (base + sizeofPool)).next =
      (nodes (base + sizeofPool)).next := by
    show (Function.update nodes (base + sizeofPool) _ (base + sizeofPool)).next = _
    rw [Function.update_self]
  have destroys : Image.step fuel (some (Image.mpCreatePool size base nodes))
      ⟨⟨.destoryPool, []⟩, writes⟩ = some (none, shown) := taken
  unfold Image.step Image.mpDestoryPool at destroys
  simp only at destroys
  have head : (Image.mpCreatePool size base nodes).head = base + sizeofPool := rfl
  rw [head, found] at destroys
  cases fuel with
  | zero => simp [Image.freeFrom, nonNull] at destroys
  | succ fuel =>
      unfold Image.freeFrom at destroys
      rw [if_neg nonNull] at destroys
      generalize Image.freeFrom _ fuel _ = later at destroys
      cases later with
      | none => contradiction
      | some rest =>
          obtain ⟨-, rfl⟩ := Prod.mk.inj (Option.some.inj destroys)
          exact ⟨_, _, rfl⟩

/-- `head->next` is what `mp_create_pool` found there. Every run that ends in
`mp_destory_pool` and rounds no cursor beyond the end of its block visits and frees
the blocks of the pool and no others, whatever is written to the memory handed out,
exactly when that is `NULL`. -/
theorem ownBlocks_iff_head_next_null {nodes : Nodes} (sound : (created size base).Sound)
    (accepted : size.toNat + 56 < 2 ^ 64) :
    (∀ (fuel : Nat) (uses : List Use) (events : List Event),
      (machine size base).Exec (uses.map Use.call) none events →
      Lent (created size base :: events) →
      (machine size base).Guarded CallInside (uses.map Use.call) → uses.length ≤ fuel →
      ∃ trace, (Image.machine fuel size base nodes).Exec uses none trace ∧ OwnBlocks base trace) ↔
    (nodes (base + sizeofPool)).next = 0 := by
  constructor
  · intro all
    by_contra nonNull
    have ran : (machine size base).Exec [⟨.destoryPool, []⟩] none
        (mpDestoryPool (mpCreatePool size base [])) :=
      .step .start rfl
    have lentAll : Lent (created size base :: mpDestoryPool (mpCreatePool size base [])) := by
      constructor
      · intro event member
        cases List.mem_cons.mp member with
        | inl isFirst => exact isFirst ▸ sound
        | inr behind =>
            rw [List.mem_singleton.mp behind]
            trivial
      · have atStart : Historically Event.Unheld ([] ++ [created size base]) :=
          historically_snoc_iff.mpr ⟨historically_nil, fun range member => absurd member List.not_mem_nil⟩
        have atEnd (earlier : List Event) (addr : UInt64) : Event.Unheld earlier (.freedBlock addr) := trivial
        exact historically_snoc_iff.mpr ⟨atStart, atEnd _ (base + sizeofPool - sizeofPool)⟩
    have guarded : (machine size base).Guarded CallInside [⟨.destoryPool, []⟩] := by
      have startInside : CallInside (some (mpCreatePool size base [])) ⟨.destoryPool, []⟩ := trivial
      exact Machine.guarded_snoc_iff.mpr ⟨Machine.guarded_nil, fun state events reached => by
        rw [(reached.functional .start).1]
        exact startInside⟩
    obtain ⟨trace, ranImage, own⟩ :=
      all 1 [⟨⟨.destoryPool, []⟩, fun _ cell => cell⟩] _ ran lentAll guarded (Nat.le_refl 1)
    obtain ⟨shown, rest, rfl⟩ := destroy_visits nonNull ranImage
    have isCreated := own.visits [] _ _ rfl _ rfl
    contradiction
  · intro null fuel uses events ran lent guarded enough
    exact ownBlocks_of_null accepted null ran lent guarded enough

end

/-- Two blocks besides the head, the second one where a large block was given back, a reset, and
memory handed out that is written to. -/
def twoBlocks : List Use :=
  [⟨.alloc 60, [256]⟩, ⟨.nalloc 90, [512]⟩, ⟨.free 512, []⟩, ⟨.alloc 60, [512]⟩, ⟨.resetPool, []⟩,
    ⟨.alloc 8, []⟩, ⟨.destoryPool, []⟩].map
    fun call => ⟨call, fun addr _ => ⟨addr, addr, addr, addr⟩⟩

theorem twoBlocks_owned :
    ∃ trace, (Image.machine 7 64 64 fun _ => ⟨1, 2, 0, 3⟩).Exec twoBlocks none trace ∧
      OwnBlocks 64 trace :=
  (ownBlocks_iff_head_next_null (by decide) (by decide)).mpr rfl 7 twoBlocks _
    ((machine 64 64).exec_of_run rfl) ⟨by decide, by decide⟩ (Machine.guarded_of_meets (by decide))
    (by decide)

/-- The word at `head->next` is 4096, which `mp_destory_pool` follows and frees. -/
theorem foundNext_freed :
    ∃ trace, (Image.machine 5 64 64 fun addr => ⟨0, 0, if addr = 88 then 4096 else 0, 0⟩).Exec
        [⟨⟨.destoryPool, []⟩, fun _ cell => cell⟩] none trace ∧
      .did (.freedBlock 4096) ∈ trace ∧ createdOf (doneIn trace) = [] ∧ ¬ OwnBlocks 64 trace := by
  refine ⟨[.visited 4096, .did (.freedBlock 4096), .did (.freedBlock 64)], ?_, by decide, by decide, ?_⟩
  · exact Machine.exec_of_run _ (by rfl)
  · intro own
    exact absurd own.freed (by decide)

end SimpleBasicComponents.MemoryPool
