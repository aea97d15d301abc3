import SimpleBasicComponents.MemoryPool.Placement

/-!
When the memory pool keeps its ranges in their blocks.

Owns: the exact condition on the calls under which every run keeps the placement,
and a run that leaves it. The fit test of `mp_alloc` is an unsigned difference:
where the rounded cursor is beyond the end of a block it passes, and the range
lies outside.
-/

namespace SimpleBasicComponents.MemoryPool

open SimpleBasicComponents.Semantics

/-- `mp_alloc` of the size does not round the cursor of a full block beyond its end. -/
def AllocInside (pool : Pool) (size : UInt64) : Prop :=
  RoundsInside roundUp size (pool.current :: pool.after)

instance (pool : Pool) (size : UInt64) : Decidable (AllocInside pool size) := by
  unfold AllocInside
  infer_instance

/-- The header of the block `p`, if one is needed. -/
def HeaderInside (pool : Pool) (reuse : Bool) : List UInt64 → Prop
  | [] => True
  | p :: _ => p = 0 ∨ (reuse ∧ (reuseEntry p 0 pool.large).isSome) ∨ AllocInside pool sizeofLarge

instance (pool : Pool) (reuse : Bool) : (answers : List UInt64) →
    Decidable (HeaderInside pool reuse answers)
  | [] => isTrue trivial
  | _ :: _ => by
      unfold HeaderInside
      infer_instance

/-- The condition on a call: where it uses `mp_alloc` for a size of at most
`pool->max`, or for a header, no cursor rounds up beyond the end of its block. -/
def CallInside (session : Option Pool) (call : Call) : Prop :=
  match session with
  | none => True
  | some pool =>
      match call.request with
      | .alloc size | .calloc size =>
          if size ≤ pool.max then AllocInside pool size else HeaderInside pool true call.answers
      | .nalloc size => size ≤ pool.max ∨ HeaderInside pool true call.answers
      | .memalign _ _ => HeaderInside pool false call.answers
      | .free _ | .resetPool | .destoryPool => True

instance (session : Option Pool) (call : Call) : Decidable (CallInside session call) := by
  unfold CallInside
  split
  · infer_instance
  · split <;> infer_instance

/-- The invariant follows from the condition, and a cursor outside from its failing if the pool
has room for a header. -/
def Outcome (size base : UInt64) (condition : Prop) (pool : Pool) (events : List Event) : Prop :=
  (condition → Laid size base pool events) ∧ (16 ≤ size → ¬ condition → ¬ pool.Inside)

section

variable {size base request : UInt64} {pool : Pool} {events : List Event} {reply : Reply}
  {place : UInt64 → UInt64} {round : Nat → Nat} {answers : List UInt64}

private theorem Outcome.always {condition : Prop} {next : Pool} {shown : List Event}
    (holds : condition) (laid : Laid size base next shown) :
    Outcome size base condition next shown :=
  ⟨fun _ => laid, fun _ fails => absurd holds fails⟩

private theorem mpAllocBlock_laid (laid : Laid size base pool events) (small : request ≤ pool.max)
    (replies : mpAllocBlock pool request answers = some reply)
    (granted : BlocksGranted (created size base :: (events ++ reply.events))) :
    Laid size base reply.pool (events ++ reply.events) := by
  obtain ⟨addr, rest, rfl, ⟨-, rfl⟩ | ⟨-, rfl⟩⟩ := mpAllocBlock_cases replies
  · rw [List.append_nil]
    exact laid
  · have extent : pool.head.endPtr - pool.head.addr = size + sizeofNode :=
      (laid.owned pool.head.span (List.mem_map_of_mem pool.head_mem_chain)).1
    exact laid.newBlock extent rfl small granted

private theorem allocSmall_outcome (rounds : Rounds place round)
    (laid : Laid size base pool events) (small : request ≤ pool.max)
    (replies : allocSmall place pool request answers = some reply)
    (granted : BlocksGranted (created size base :: (events ++ reply.events))) :
    Outcome size base (RoundsInside round request (pool.current :: pool.after)) reply.pool
      (events ++ reply.events) := by
  have page : request.toNat ≤ 4095 := by
    have limit := UInt64.le_iff_toNat_le.mp small
    rw [laid.max] at limit
    exact Nat.le_trans limit max_le_page
  have ordered : ∀ node ∈ pool.current :: pool.after, node.region.Ordered := by
    intro node member
    exact laid.inside node (List.mem_append_right _ member)
  have spec := takeRoom_spec place request pool.current pool.after
  unfold allocSmall at replies
  cases found : takeRoom place request pool.current pool.after with
  | none =>
      rw [found] at spec replies
      -- no node passes the test, so none has room and none was rounded to beyond its end
      have inside : RoundsInside round request (pool.current :: pool.after) := by
        rw [← List.append_nil (pool.current :: pool.after), roundsInside_append_iff]
        · trivial
        · intro node member
          have fails := spec node member
          rw [fits_iff rounds page (ordered node member)] at fails
          omega
      exact .always inside (mpAllocBlock_laid laid small replies granted)
  | some result =>
      obtain ⟨⟨current, after⟩, m⟩ := result
      rw [found] at spec replies
      obtain rfl := Option.some.inj replies
      obtain ⟨front, node, back, before, now, atNode, room, passed⟩ := spec
      have inList : node ∈ pool.current :: pool.after := by
        rw [before]
        simp
      have orderedNode := ordered node inList
      have skip : RoundsInside round request (front ++ node :: back) ↔
          RoundsInside round request (node :: back) := by
        apply roundsInside_append_iff
        intro other member
        have fails := passed other member
        have inFront : other ∈ pool.current :: pool.after := by
          rw [before]
          exact List.mem_append_left _ member
        rw [fits_iff rounds page (ordered other inFront)] at fails
        omega
      rw [before, skip]
      have whole : pool.chain = pool.before ++ front ++ node :: back := by
        unfold Pool.chain
        rw [before, List.append_assoc]
      have wholeNow : ({ pool with current := current, after := after } : Pool).chain =
          pool.before ++ front ++ { node with last := m + request } :: back := by
        unfold Pool.chain
        rw [now, List.append_assoc]
      rw [fits_iff rounds page orderedNode] at room
      cases room with
      | inl beyond =>
          refine ⟨?_, ?_⟩
          · intro inside
            exact absurd inside.1 (Nat.not_le_of_lt beyond)
          · intro _ _ inside
            have span : node.span ∈ pool.chain.map Node.span := by
              rw [whole]
              exact List.mem_map_of_mem (by simp)
            have owned := (laid.owned node.span span).2
            have short := short_of_owned (granted.earlier (List.prefix_append _ _)) owned
            have outside := not_ordered_of_beyond rounds page orderedNode short beyond
            rw [← atNode] at outside
            apply outside
            apply inside
            rw [wholeNow]
            simp
      | inr fits =>
          have placed : m.toNat = round node.last.toNat := by
            have bound := node.endPtr.toNat_lt
            rw [atNode, rounds.toNat]
            omega
          refine .always ⟨by omega, .inl fits⟩ (laid.carve whole wholeNow rfl ?_ ?_)
          · rw [placed]
            exact rounds.up _
          · rw [placed]
            exact fits

/-! ### Large blocks -/

private theorem mpAlloc_small {depth : Nat} (small : request ≤ pool.max) :
    mpAlloc (depth + 1) pool request answers = allocSmall mpAlignPtr pool request answers :=
  if_pos small

private theorem pushLarge_laid {alloc : Pool → UInt64 → List UInt64 → Option Reply} {p n : UInt64}
    (inner : ∀ entry, alloc pool sizeofLarge answers = some entry →
      Laid size base entry.pool ((events ++ [.large p n]) ++ entry.events))
    (replies : pushLarge alloc pool p n answers = some reply) :
    Laid size base reply.pool (events ++ reply.events) := by
  obtain ⟨entry, served, ⟨-, rfl⟩ | ⟨-, rfl⟩⟩ := pushLarge_cases replies
  · have split : events ++ (.large p n :: entry.events ++ [.released p]) =
        ((events ++ [.large p n]) ++ entry.events) ++ [.released p] := by simp
    show Laid size base entry.pool (events ++ (.large p n :: entry.events ++ [.released p]))
    rw [split]
    exact (inner entry served).quiet rfl
  · have split : events ++ (.large p n :: entry.events) =
        (events ++ [.large p n]) ++ entry.events := by simp
    show Laid size base _ (events ++ (.large p n :: entry.events))
    rw [split]
    exact (inner entry served).sameChain rfl rfl

/-- A pool too small for a header obtains large blocks for it and puts none into its blocks. -/
private theorem mpAlloc_header_laid {depth : Nat} (big : ¬ sizeofLarge ≤ pool.max)
    (laid : Laid size base pool events)
    (replies : mpAlloc depth pool sizeofLarge answers = some reply) :
    Laid size base reply.pool (events ++ reply.events) := by
  induction depth generalizing events answers reply with
  | zero => contradiction
  | succ depth inductionHypothesis =>
      unfold mpAlloc at replies
      rw [if_neg big] at replies
      obtain ⟨p, rest, -, ⟨-, rfl⟩ | ⟨-, large, -, rfl⟩ | ⟨-, -, pushes⟩⟩ := mpAllocLarge_cases replies
      · rw [List.append_nil]
        exact laid
      · exact (laid.quiet rfl).sameChain rfl rfl
      · exact pushLarge_laid (fun entry => inductionHypothesis (laid.quiet rfl)) pushes

private theorem header_outcome {depth : Nat} (laid : Laid size base pool events)
    (replies : mpAlloc (depth + 1) pool sizeofLarge answers = some reply)
    (granted : BlocksGranted (created size base :: (events ++ reply.events))) :
    Outcome size base (AllocInside pool sizeofLarge) reply.pool (events ++ reply.events) := by
  by_cases small : sizeofLarge ≤ pool.max
  · rw [mpAlloc_small small] at replies
    exact allocSmall_outcome mpAlignPtr_rounds laid small replies granted
  · refine ⟨fun _ => mpAlloc_header_laid small laid replies, fun enough => ?_⟩
    rw [laid.max] at small
    exact absurd (sixteen_le_max enough) small

private theorem pushLarge_outcome {depth : Nat} {p n : UInt64} (laid : Laid size base pool events)
    (replies : pushLarge (mpAlloc (depth + 1)) pool p n answers = some reply)
    (granted : BlocksGranted (created size base :: (events ++ reply.events))) :
    Outcome size base (AllocInside pool sizeofLarge) reply.pool (events ++ reply.events) := by
  have obtainedFirst : Laid size base pool (events ++ [.large p n]) := laid.quiet rfl
  obtain ⟨entry, served, pushed⟩ := pushLarge_cases replies
  have within : (events ++ [.large p n]) ++ entry.events <+: events ++ reply.events := by
    rcases pushed with ⟨-, rfl⟩ | ⟨-, rfl⟩
    · exact ⟨[.released p], by simp⟩
    · exact ⟨[], by simp⟩
  have header := header_outcome obtainedFirst served
    (granted.earlier ((List.prefix_cons_inj _).mpr within))
  constructor
  · intro inside
    apply pushLarge_laid ?_ replies
    intro other same
    rw [Option.some.inj (same.symm.trans served)]
    exact header.1 inside
  · intro enough fails
    have outside := header.2 enough fails
    rcases pushed with ⟨-, rfl⟩ | ⟨-, rfl⟩
    · exact outside
    · exact outside

private theorem mpAllocLarge_outcome {depth : Nat} {n : UInt64}
    (deep : answers.length ≤ depth) (laid : Laid size base pool events)
    (replies : mpAllocLarge (mpAlloc depth) pool n answers = some reply)
    (granted : BlocksGranted (created size base :: (events ++ reply.events))) :
    Outcome size base (HeaderInside pool true answers) reply.pool (events ++ reply.events) := by
  obtain ⟨p, rest, rfl, ⟨failed, rfl⟩ | ⟨-, large, reused, rfl⟩ | ⟨obtained, noEntry, pushes⟩⟩ :=
    mpAllocLarge_cases replies
  · rw [List.append_nil]
    exact .always (.inl failed) laid
  · refine .always (.inr (.inl ⟨rfl, by rw [reused]; rfl⟩)) ?_
    exact (laid.quiet rfl).sameChain rfl rfl
  · obtain ⟨depth, rfl⟩ := Nat.exists_eq_add_of_le' (Nat.le_trans (Nat.le_add_left 1 _) deep)
    have outcome := pushLarge_outcome laid pushes granted
    have needed : HeaderInside pool true (p :: rest) ↔ AllocInside pool sizeofLarge := by
      unfold HeaderInside
      simp [obtained, noEntry]
    rw [needed]
    exact outcome

/-! ### Calls -/

private theorem Outcome.answered {condition : Prop}
    (outcome : Outcome size base condition reply.pool (events ++ reply.events)) :
    Outcome size base condition reply.pool
      (events ++ (reply.events ++ [.returned reply.pointer])) := by
  refine ⟨fun holds => ?_, outcome.2⟩
  rw [← List.append_assoc]
  exact (outcome.1 holds).quiet rfl

private theorem release_quiet (p : UInt64) (handed : List Range) :
    (release p).foldl noteCarved handed = handed := by
  unfold release
  split <;> rfl

private theorem freeEntry_quiet (p : UInt64) (entries : List Large) (handed : List Range) :
    (freeEntry p entries).2.foldl noteCarved handed = handed := by
  induction entries with
  | nil => rfl
  | cons entry rest inductionHypothesis =>
      unfold freeEntry
      split
      · exact release_quiet _ _
      · exact inductionHypothesis

private theorem releaseLarge_quiet (entries : List Large) (handed : List Range) :
    (entries.flatMap fun entry => release entry.alloc).foldl noteCarved handed = handed := by
  induction entries with
  | nil => rfl
  | cons entry rest inductionHypothesis =>
      rw [List.flatMap_cons, List.foldl_append, release_quiet, inductionHypothesis]

private theorem mpFree_laid (laid : Laid size base pool events) (p : UInt64) :
    Laid size base (mpFree pool p).1 (events ++ (mpFree pool p).2) :=
  (laid.quiet (freeEntry_quiet p pool.large _)).sameChain rfl rfl

private theorem mpResetPool_laid (laid : Laid size base pool events) :
    Laid size base (mpResetPool pool).1 (events ++ (mpResetPool pool).2) := by
  have chain : (mpResetPool pool).1.chain = pool.chain.map Node.rewind := by
    simp [mpResetPool, Pool.chain]
  have regions : (mpResetPool pool).1.chain.map Node.region =
      (pool.chain.map Node.region).map Region.rewind := by
    rw [chain, List.map_map, List.map_map]
    apply List.map_congr_left
    intro node member
    have ordered := laid.inside node member
    have header : node.addr.toNat + 32 ≤ node.last.toNat := ordered.1
    have bound := node.last.toNat_lt
    have first : (node.addr + sizeofNode).toNat = node.addr.toNat + 32 := by
      rw [UInt64.toNat_add]
      show (node.addr.toNat + 32) % 2 ^ 64 = _
      omega
    simp [Node.rewind, Node.region, Region.rewind, first]
  have spans : (mpResetPool pool).1.chain.map Node.span = pool.chain.map Node.span := by
    rw [chain, List.map_map]
    rfl
  have started : carved (events ++ (mpResetPool pool).2) = [] := by
    unfold mpResetPool releaseLarge
    rw [carved_append, List.foldl_append, releaseLarge_quiet]
    rfl
  refine ⟨laid.accepted, laid.max, ?_, ?_⟩
  · intro span member
    rw [spans] at member
    obtain ⟨extent, range, isBlock, inBlock⟩ := laid.owned span member
    exact ⟨extent, range, blocks_append isBlock, inBlock⟩
  · rw [regions, started]
    exact laid.tiled.rewind

/-- The condition decides what a call leaves of the invariant. -/
private theorem step_outcome {call : Call} {next : Pool} {shown : List Event}
    (laid : Laid size base pool events)
    (taken : step (some pool) call = some (some next, shown))
    (granted : BlocksGranted (created size base :: (events ++ shown))) :
    Outcome size base (CallInside (some pool) call) next (events ++ shown) := by
  obtain ⟨asked, answers⟩ := call
  have shorter {reply : Reply} (isShown : shown = reply.events ++ [.returned reply.pointer]) :
      BlocksGranted (created size base :: (events ++ reply.events)) := by
    rw [isShown, ← List.append_assoc] at granted
    exact granted.earlier (List.prefix_append _ _)
  have alloc {n : UInt64} {reply : Reply}
      (replies : mpAlloc (answers.length + 1) pool n answers = some reply)
      (granted : BlocksGranted (created size base :: (events ++ reply.events))) :
      Outcome size base (CallInside (some pool) ⟨.alloc n, answers⟩) reply.pool
        (events ++ reply.events) := by
    unfold CallInside
    unfold mpAlloc at replies
    simp only
    split at replies
    · rename_i small
      rw [if_pos small]
      exact allocSmall_outcome mpAlignPtr_rounds laid small replies granted
    · rename_i big
      rw [if_neg big]
      exact mpAllocLarge_outcome (Nat.le_refl _) laid replies granted
  cases asked with
  | alloc n =>
      obtain ⟨reply, replies, same, isShown⟩ := answered_eq taken
      obtain rfl := Option.some.inj same
      rw [isShown]
      exact (alloc replies (shorter isShown)).answered
  | nalloc n =>
      obtain ⟨reply, replies, same, isShown⟩ := answered_eq taken
      obtain rfl := Option.some.inj same
      rw [isShown]
      unfold mpNalloc at replies
      split at replies
      · rename_i small
        have outcome := allocSmall_outcome unaligned_rounds laid small replies (shorter isShown)
        have inside : RoundsInside (fun n => n) n (pool.current :: pool.after) := by
          apply roundsInside_unaligned
          intro node member
          exact laid.inside node (List.mem_append_right _ member)
        have allowed : CallInside (some pool) ⟨.nalloc n, answers⟩ := Or.inl small
        exact (Outcome.always allowed (outcome.1 inside)).answered
      · rename_i big
        have outcome := mpAllocLarge_outcome (Nat.le_succ_of_le (Nat.le_refl _)) laid replies
          (shorter isShown)
        have same : CallInside (some pool) ⟨.nalloc n, answers⟩ ↔ HeaderInside pool true answers := by
          unfold CallInside
          simp [big]
        rw [same]
        exact outcome.answered
  | calloc n =>
      obtain ⟨reply, replies, same, isShown⟩ := answered_eq taken
      obtain rfl := Option.some.inj same
      have granted := shorter isShown
      rw [isShown]
      apply Outcome.answered
      obtain ⟨first, served, ⟨-, rfl⟩ | ⟨-, rfl⟩⟩ := mpCalloc_cases replies
      · exact alloc served granted
      · simp only at granted ⊢
        rw [← List.append_assoc] at granted ⊢
        have outcome := alloc served (granted.earlier (List.prefix_append _ _))
        exact ⟨fun holds => (outcome.1 holds).quiet rfl, outcome.2⟩
  | memalign n alignment =>
      obtain ⟨reply, replies, same, isShown⟩ := answered_eq taken
      obtain rfl := Option.some.inj same
      rw [isShown]
      apply Outcome.answered
      obtain ⟨p, rest, rfl, ⟨failed, rfl⟩ | ⟨obtained, pushes⟩⟩ := mpMemalign_cases replies
      · rw [List.append_nil]
        exact .always (.inl failed) laid
      · have needed : CallInside (some pool) ⟨.memalign n alignment, p :: rest⟩ ↔
            AllocInside pool sizeofLarge := by
          unfold CallInside HeaderInside
          simp [obtained]
        rw [needed]
        exact pushLarge_outcome laid pushes (shorter isShown)
  | free p =>
      obtain ⟨same, rfl⟩ := Prod.mk.inj (Option.some.inj taken)
      obtain rfl := Option.some.inj same
      exact .always trivial (mpFree_laid laid p)
  | resetPool =>
      obtain ⟨same, rfl⟩ := Prod.mk.inj (Option.some.inj taken)
      obtain rfl := Option.some.inj same
      exact .always trivial (mpResetPool_laid laid)
  | destoryPool =>
      obtain ⟨same, -⟩ := Prod.mk.inj (Option.some.inj taken)
      contradiction

end

/-! ### Runs -/

section

variable {size base : UInt64}

theorem start_laid (accepted : size.toNat + 56 < 2 ^ 64)
    (granted : BlocksGranted [created size base]) : Laid size base (mpCreatePool size base []) [] := by
  have sound : (created size base).Sound := granted.sound _ List.mem_cons_self
  have ends : base.toNat + (size + sizeofPool + sizeofNode).toNat < 2 ^ 64 := sound.2.2
  have ⟨whole, header, first, atEnd⟩ := granted.firstBlock accepted
  have chain : (mpCreatePool size base []).chain = [(mpCreatePool size base []).current] := rfl
  refine ⟨accepted, rfl, ?_, ?_⟩
  · intro span member
    rw [chain] at member
    obtain rfl := List.mem_singleton.mp member
    refine ⟨?_, ⟨base.toNat, (size + sizeofPool + sizeofNode).toNat⟩, List.mem_cons_self, ?_, ?_⟩
    · show base + sizeofPool + sizeofNode + size - (base + sizeofPool) = size + sizeofNode
      rw [UInt64.add_assoc, UInt64.add_comm (base + sizeofPool), UInt64.add_sub_cancel,
        UInt64.add_comm]
    · show base.toNat ≤ (base + sizeofPool).toNat
      omega
    · show (base + sizeofPool + sizeofNode + size).toNat ≤
        base.toNat + (size + sizeofPool + sizeofNode).toNat
      omega
  · rw [chain]
    have ordered : (mpCreatePool size base []).current.region.Ordered := by
      show (base + sizeofPool).toNat + 32 ≤ (base + sizeofPool + sizeofNode).toNat ∧
        (base + sizeofPool + sizeofNode).toNat ≤ (base + sizeofPool + sizeofNode + size).toNat
      omega
    refine ⟨?_, List.pairwise_singleton _ _, by simp [carved], .nil⟩
    intro region member
    obtain rfl := List.mem_singleton.mp member
    exact ordered

/-- When the size of the request for the pool wraps around, the end of the head is
below its first byte. -/
private theorem start_outside (overflows : ¬ size.toNat + 56 < 2 ^ 64)
    (granted : BlocksGranted [created size base]) : ¬ (mpCreatePool size base []).Inside := by
  intro inside
  have sound : (created size base).Sound := granted.sound _ List.mem_cons_self
  have multiple : 32 ∣ base.toNat := sound.1
  have bound := base.toNat_lt
  have sizeBound := size.toNat_lt
  have header := header_toNat multiple
  have first : (base + sizeofPool + sizeofNode).toNat = (base.toNat + 24 + 32) % 2 ^ 64 := by
    rw [UInt64.toNat_add, header]
    rfl
  have atEnd : (base + sizeofPool + sizeofNode + size).toNat =
      ((base.toNat + 24 + 32) % 2 ^ 64 + size.toNat) % 2 ^ 64 := by
    rw [UInt64.toNat_add, first]
  have ordered : (mpCreatePool size base []).current.region.Ordered := inside _ List.mem_cons_self
  have starts : (base + sizeofPool).toNat + 32 ≤ (base + sizeofPool + sizeofNode).toNat := ordered.1
  have stops : (base + sizeofPool + sizeofNode).toNat ≤
      (base + sizeofPool + sizeofNode + size).toNat := ordered.2
  omega

/-- A run whose calls all meet the condition keeps the invariant, whatever the size of the pool
that does not wrap around. -/
theorem exec_laid (accepted : size.toNat + 56 < 2 ^ 64) {calls : List Call}
    {session : Option Pool} {events : List Event} (ran : (machine size base).Exec calls session events)
    (granted : BlocksGranted (created size base :: events))
    (guarded : (machine size base).Guarded CallInside calls) :
    ∀ pool, session = some pool → Laid size base pool events := by
  induction ran with
  | start =>
      intro pool same
      rw [← Option.some.inj same]
      exact start_laid accepted granted
  | @step calls session next events shown call before taken inductionHypothesis =>
      have ⟨earlier, atEnd⟩ := Machine.guarded_snoc_iff.mp guarded
      have grantedBefore : BlocksGranted (created size base :: events) :=
        granted.earlier ((List.prefix_cons_inj _).mpr (List.prefix_append _ _))
      intro after same
      subst same
      cases session with
      | none => contradiction
      | some pool =>
          have laid := inductionHypothesis grantedBefore earlier pool rfl
          exact (step_outcome laid taken granted).1 (atEnd _ _ before)

end

/-- Small, large and unaligned requests, a block given back, and a reset between them. -/
def mixedCalls : List Call :=
  [⟨.alloc 8, []⟩, ⟨.calloc 1, []⟩, ⟨.alloc 5000, [4096]⟩, ⟨.nalloc 3, []⟩, ⟨.free 4096, []⟩,
    ⟨.memalign 50 64, [12288]⟩, ⟨.resetPool, []⟩, ⟨.nalloc 100, []⟩, ⟨.alloc 60, [16384]⟩]

end SimpleBasicComponents.MemoryPool
