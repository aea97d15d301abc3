import SimpleBasicComponents.MemoryPool.Model
import SimpleBasicComponents.Semantics.Ledger

/-!
The ledger of the large blocks of the memory pool.

Owns: which blocks `pool->large` holds, which the events obtain and release, and
the proof that the two agree in every reachable state, whatever `malloc` and
`posix_memalign` answer.
-/

namespace SimpleBasicComponents.MemoryPool

open SimpleBasicComponents.Semantics

/-- How an event enters the ledger of the large blocks. -/
def largeEntry : Event → Option (Entry UInt64)
  | .large addr _ => some (.obtained addr)
  | .released addr => some (.released addr)
  | _ => none

/-- The fields `alloc` that are not `NULL`. -/
def allocs (entries : List Large) : List UInt64 :=
  (entries.map Large.alloc).filter fun alloc => alloc ≠ 0

/-- What `pool->large` holds; a destroyed pool holds nothing. -/
def held : Option Pool → List UInt64
  | some pool => allocs pool.large
  | none => []

theorem allocs_cons (entry : Large) (rest : List Large) :
    allocs (entry :: rest) = if entry.alloc = 0 then allocs rest else entry.alloc :: allocs rest := by
  unfold allocs
  by_cases null : entry.alloc = 0
  · simp [null]
  · simp [null]

/-! ### The list -/

theorem reuseEntry_allocs {p : UInt64} (nonNull : p ≠ 0) {n : Nat} {entries reused : List Large}
    (found : reuseEntry p n entries = some reused) :
    (allocs reused).Perm (p :: allocs entries) := by
  induction entries generalizing n reused with
  | nil => contradiction
  | cons entry rest inductionHypothesis =>
      unfold reuseEntry at found
      split at found
      · rename_i null
        obtain rfl := Option.some.inj found
        rw [allocs_cons, allocs_cons, if_neg nonNull, if_pos null]
      · rename_i taken
        split at found
        · contradiction
        · cases later : reuseEntry p (n + 1) rest with
          | none =>
              rw [later] at found
              contradiction
          | some others =>
              rw [later] at found
              obtain rfl := Option.some.inj found
              rw [allocs_cons, allocs_cons, if_neg taken, if_neg taken]
              exact ((inductionHypothesis later).cons entry.alloc).trans (.swap _ _ _)

/-- `mp_free` releases the pointer if the list holds it. -/
theorem freeEntry_allocs (p : UInt64) (entries : List Large) :
    (allocs (freeEntry p entries).1 = allocs entries ∧ (freeEntry p entries).2 = []) ∨
      (p ∈ allocs entries ∧ allocs (freeEntry p entries).1 = (allocs entries).erase p ∧
        (freeEntry p entries).2 = [.released p]) := by
  induction entries with
  | nil => exact .inl ⟨rfl, rfl⟩
  | cons entry rest inductionHypothesis =>
      unfold freeEntry
      by_cases same : p = entry.alloc
      · rw [if_pos same]
        rw [allocs_cons, allocs_cons, if_pos rfl]
        by_cases null : entry.alloc = 0
        · rw [if_pos null]
          exact .inl ⟨rfl, if_pos null⟩
        · rw [if_neg null, same]
          refine .inr ⟨List.mem_cons_self, ?_, if_neg null⟩
          exact (List.erase_cons_head _ _).symm
      · rw [if_neg same]
        simp only
        rw [allocs_cons, allocs_cons]
        by_cases null : entry.alloc = 0
        · rw [if_pos null, if_pos null]
          exact inductionHypothesis
        · rw [if_neg null, if_neg null]
          cases inductionHypothesis with
          | inl missed => exact .inl ⟨congrArg _ missed.1, missed.2⟩
          | inr found =>
              refine .inr ⟨List.mem_cons_of_mem _ found.1, ?_, found.2.2⟩
              have different : ¬ (entry.alloc == p) = true := by
                rw [beq_iff_eq]
                exact Ne.symm same
              rw [List.erase_cons_tail different, found.2.1]

theorem releaseLarge_eq (pool : Pool) :
    releaseLarge pool = (allocs pool.large).map Event.released := by
  unfold releaseLarge
  induction pool.large with
  | nil => rfl
  | cons entry rest inductionHypothesis =>
      rw [List.flatMap_cons, inductionHypothesis, allocs_cons]
      unfold release
      split <;> rfl

/-! ### Requests -/

/-- Requests of at most `pool->max` bytes leave the list alone. -/
theorem allocSmall_large {place : UInt64 → UInt64} {pool : Pool} {request : UInt64}
    {answers : List UInt64} {reply : Reply}
    (replies : allocSmall place pool request answers = some reply) :
    reply.pool.large = pool.large ∧ reply.pool.max = pool.max ∧
      ∀ event ∈ reply.events, largeEntry event = none := by
  unfold allocSmall at replies
  split at replies
  · obtain rfl := Option.some.inj replies
    exact ⟨rfl, rfl, by simp [largeEntry]⟩
  · obtain ⟨addr, rest, rfl, ⟨-, rfl⟩ | ⟨-, rfl⟩⟩ := mpAllocBlock_cases replies
    · exact ⟨rfl, rfl, by simp⟩
    · refine ⟨?_, ?_, by simp [largeEntry]⟩
      · unfold Pool.append
        split <;> rfl
      · unfold Pool.append
        split <;> rfl

/-- What a request leaves: the list holds what is outstanding, and after a failure
it holds what it held before. -/
structure Kept (pool : Pool) (events : List Event) (reply : Reply) : Prop where
  settled : Ledger.Settled largeEntry (allocs reply.pool.large) (events ++ reply.events)
  max : reply.pool.max = pool.max
  failed : reply.pointer = 0 → allocs reply.pool.large = allocs pool.large

section

variable {pool : Pool} {events : List Event} {request : UInt64} {answers : List UInt64}
  {reply : Reply} {depth : Nat}

private theorem kept_unchanged (settled : Ledger.Settled largeEntry (allocs pool.large) events)
    (pointer : UInt64) (rest : List UInt64) : Kept pool events ⟨pool, pointer, rest, []⟩ := by
  refine ⟨?_, rfl, fun _ => rfl⟩
  rw [List.append_nil]
  exact settled

private theorem allocSmall_kept {place : UInt64 → UInt64}
    (settled : Ledger.Settled largeEntry (allocs pool.large) events)
    (replies : allocSmall place pool request answers = some reply) : Kept pool events reply := by
  obtain ⟨large, max, silent⟩ := allocSmall_large replies
  refine ⟨?_, max, fun _ => by rw [large]⟩
  rw [large]
  exact settled.quiet silent

private theorem pushLarge_kept {p n : UInt64} (enough : sizeofLarge ≤ pool.max) (nonNull : p ≠ 0)
    (settled : Ledger.Settled largeEntry (allocs pool.large) events)
    (fresh : Ledger.Fresh largeEntry (events ++ reply.events))
    (replies : pushLarge (mpAlloc (depth + 1)) pool p n answers = some reply) :
    Kept pool events reply := by
  have header : mpAlloc (depth + 1) pool sizeofLarge answers =
      allocSmall mpAlignPtr pool sizeofLarge answers := if_pos enough
  obtain ⟨entry, served, outcome⟩ := pushLarge_cases replies
  rw [header] at served
  obtain ⟨large, max, silent⟩ := allocSmall_large served
  have obtained (rest : List Event) (shown : reply.events = .large p n :: rest) :
      Ledger.Settled largeEntry (p :: allocs pool.large) (events ++ [.large p n]) := by
    apply settled.obtain _ rfl
    exact fresh events (.large p n) rest (by rw [shown]) p rfl
  rcases outcome with ⟨-, rfl⟩ | ⟨-, rfl⟩
  · have both := ((obtained _ rfl).quiet silent).release (.released p) rfl
      List.mem_cons_self
    rw [List.erase_cons_head] at both
    refine ⟨?_, max, fun _ => congrArg allocs large⟩
    simp only
    rw [large]
    simpa using both
  · have both := (obtained _ rfl).quiet silent
    refine ⟨?_, max, fun null => absurd null nonNull⟩
    simp only
    rw [allocs_cons, if_neg nonNull, large]
    simpa using both

private theorem mpAllocLarge_kept (enough : sizeofLarge ≤ pool.max) (deep : answers.length ≤ depth)
    (settled : Ledger.Settled largeEntry (allocs pool.large) events)
    (fresh : Ledger.Fresh largeEntry (events ++ reply.events))
    (replies : mpAllocLarge (mpAlloc depth) pool request answers = some reply) :
    Kept pool events reply := by
  obtain ⟨p, rest, rfl, ⟨-, rfl⟩ | ⟨nonNull, large, reused, rfl⟩ | ⟨nonNull, -, pushes⟩⟩ :=
    mpAllocLarge_cases replies
  · exact kept_unchanged settled 0 rest
  · refine ⟨?_, rfl, fun null => absurd null nonNull⟩
    have obtained := settled.obtain (.large p request) rfl
      (fresh events (.large p request) [] rfl p rfl)
    exact obtained.of_perm (reuseEntry_allocs nonNull reused)
  · obtain ⟨depth, rfl⟩ := Nat.exists_eq_add_of_le' (Nat.le_trans (Nat.le_add_left 1 _) deep)
    exact pushLarge_kept enough nonNull settled fresh pushes

private theorem mpAlloc_kept (enough : sizeofLarge ≤ pool.max)
    (settled : Ledger.Settled largeEntry (allocs pool.large) events)
    (fresh : Ledger.Fresh largeEntry (events ++ reply.events))
    (replies : mpAlloc (answers.length + 1) pool request answers = some reply) :
    Kept pool events reply := by
  unfold mpAlloc at replies
  split at replies
  · exact allocSmall_kept settled replies
  · exact mpAllocLarge_kept enough (Nat.le_refl _) settled fresh replies

end

/-! ### Runs -/

/-- The state of the ledger between two calls. -/
structure Balanced (session : Option Pool) (events : List Event) : Prop where
  settled : Ledger.Settled largeEntry (held session) events
  enough : ∀ pool, session = some pool → sizeofLarge ≤ pool.max

section

variable {size base : UInt64} {pool : Pool} {events shown : List Event}

private theorem Kept.balanced {reply : Reply} (kept : Kept pool events reply)
    (enough : sizeofLarge ≤ pool.max) :
    Balanced (some reply.pool) (events ++ (reply.events ++ [.returned reply.pointer])) := by
  refine ⟨?_, ?_⟩
  · rw [← List.append_assoc]
    exact kept.settled.quiet (by simp [largeEntry])
  · intro next same
    obtain rfl := Option.some.inj same
    rw [kept.max]
    exact enough

/-- What a call leaves, and that a request that failed changed nothing. -/
private theorem step_balanced {call : Call} {session : Option Pool}
    (balanced : Balanced (some pool) events)
    (fresh : Ledger.Fresh largeEntry (events ++ shown))
    (taken : step (some pool) call = some (session, shown)) :
    Balanced session (events ++ shown) ∧
      (shown.getLast? = some (.returned 0) → held session = held (some pool)) := by
  have enough := balanced.enough pool rfl
  have settled : Ledger.Settled largeEntry (allocs pool.large) events := balanced.settled
  obtain ⟨asked, answers⟩ := call
  have earlier {reply : Reply} (isShown : shown = reply.events ++ [.returned reply.pointer]) :
      Ledger.Fresh largeEntry (events ++ reply.events) := by
    rw [isShown, ← List.append_assoc] at fresh
    exact fresh.earlier
  have request {reply : Reply} (kept : Kept pool events reply)
      (isShown : shown = reply.events ++ [.returned reply.pointer]) :
      Balanced (some reply.pool) (events ++ shown) ∧
        (shown.getLast? = some (.returned 0) → held (some reply.pool) = held (some pool)) := by
    rw [isShown]
    refine ⟨kept.balanced enough, ?_⟩
    intro returnedNull
    apply kept.failed
    simpa using returnedNull
  have unlimited {next : Pool} (max : next.max = pool.max) :
      ∀ other, some next = some other → sizeofLarge ≤ other.max := by
    intro other same
    obtain rfl := Option.some.inj same
    rw [max]
    exact enough
  cases asked with
  | alloc n =>
      obtain ⟨reply, replies, rfl, isShown⟩ := answered_eq taken
      exact request (mpAlloc_kept enough settled (earlier isShown) replies) isShown
  | nalloc n =>
      obtain ⟨reply, replies, rfl, isShown⟩ := answered_eq taken
      unfold mpNalloc at replies
      split at replies
      · exact request (allocSmall_kept settled replies) isShown
      · exact request (mpAllocLarge_kept enough (Nat.le_succ _) settled (earlier isShown) replies)
          isShown
  | calloc n =>
      obtain ⟨reply, replies, rfl, isShown⟩ := answered_eq taken
      have freshReply := earlier isShown
      obtain ⟨first, served, ⟨-, rfl⟩ | ⟨-, rfl⟩⟩ := mpCalloc_cases replies
      · exact request (mpAlloc_kept enough settled freshReply served) isShown
      · simp only at freshReply
        rw [← List.append_assoc] at freshReply
        have kept := mpAlloc_kept enough settled freshReply.earlier served
        refine request ⟨?_, kept.max, kept.failed⟩ isShown
        rw [← List.append_assoc]
        exact kept.settled.quiet (by simp [largeEntry])
  | memalign n alignment =>
      obtain ⟨reply, replies, rfl, isShown⟩ := answered_eq taken
      obtain ⟨p, rest, rfl, ⟨-, rfl⟩ | ⟨nonNull, pushes⟩⟩ := mpMemalign_cases replies
      · exact request (kept_unchanged settled 0 rest) isShown
      · exact request (pushLarge_kept enough nonNull settled (earlier isShown) pushes) isShown
  | free p =>
      obtain ⟨rfl, rfl⟩ := Prod.mk.inj (Option.some.inj taken)
      rcases freeEntry_allocs p pool.large with ⟨same, silent⟩ | ⟨member, erased, released⟩
      · rw [silent, List.append_nil]
        refine ⟨⟨?_, unlimited rfl⟩, fun returned => by simp at returned⟩
        show Ledger.Settled largeEntry (allocs _) events
        rw [same]
        exact settled
      · rw [released]
        refine ⟨⟨?_, unlimited rfl⟩, fun returned => by simp at returned⟩
        show Ledger.Settled largeEntry (allocs _) _
        rw [erased]
        exact settled.release _ rfl member
  | resetPool =>
      obtain ⟨rfl, rfl⟩ := Prod.mk.inj (Option.some.inj taken)
      refine ⟨⟨?_, unlimited rfl⟩, fun returned => by simp at returned⟩
      have emptied : Ledger.Settled largeEntry []
          (events ++ (allocs pool.large).map Event.released) := settled.releaseAll fun _ => rfl
      rw [← List.append_assoc, releaseLarge_eq]
      exact emptied.quiet (by simp [largeEntry])
  | destoryPool =>
      obtain ⟨rfl, rfl⟩ := Prod.mk.inj (Option.some.inj taken)
      unfold mpDestoryPool
      refine ⟨⟨?_, fun other same => by contradiction⟩, fun returned => by simp at returned⟩
      rw [releaseLarge_eq, List.append_assoc, ← List.append_assoc]
      have emptied : Ledger.Settled largeEntry []
          (events ++ (allocs pool.large).map Event.released) := settled.releaseAll fun _ => rfl
      apply emptied.quiet
      intro event member
      rcases List.mem_append.mp member with inChain | atEnd
      · obtain ⟨node, -, rfl⟩ := List.mem_map.mp inChain
        rfl
      · obtain rfl := List.mem_singleton.mp atEnd
        rfl

private theorem balanced_of_exec (enough : 16 ≤ size) {calls : List Call} {session : Option Pool}
    (ran : (machine size base).Exec calls session events)
    (fresh : Ledger.Fresh largeEntry events) : Balanced session events := by
  induction ran with
  | start =>
      refine ⟨Ledger.settled_nil, ?_⟩
      intro pool same
      obtain rfl := Option.some.inj same
      exact sixteen_le_max enough
  | @step calls session next events shown call before taken inductionHypothesis =>
      have balanced := inductionHypothesis fresh.earlier
      cases session with
      | none => contradiction
      | some pool => exact (step_balanced balanced fresh taken).1

/-- In every run from a pool of at least 16 bytes, `pool->large` holds without
repetition exactly the large blocks that were obtained and not yet released; a
block is released only while it is held, as often as it was obtained and is no
longer held; and a request that returns `NULL` leaves nothing unreleased. -/
theorem largeBlocks_settled (enough : 16 ≤ size) {calls : List Call} {session : Option Pool}
    (ran : (machine size base).Exec calls session events)
    (fresh : Ledger.Fresh largeEntry events) :
    Ledger.Settled largeEntry (held session) events ∧
      (∀ block, events.countP (fun event => largeEntry event = some (.obtained block)) =
        events.countP (fun event => largeEntry event = some (.released block)) +
          (held session).count block) ∧
      ∀ call next shown, step session call = some (next, shown) →
        Ledger.Fresh largeEntry (events ++ shown) → shown.getLast? = some (.returned 0) →
        ∀ block, block ∈ Ledger.outstanding largeEntry (events ++ shown) ↔
          block ∈ Ledger.outstanding largeEntry events := by
  have balanced := balanced_of_exec enough ran fresh
  refine ⟨balanced.settled, ?_, ?_⟩
  · intro block
    rw [balanced.settled.perm.count_eq]
    exact Ledger.count_of_owned balanced.settled.owned block
  · intro call next shown taken freshNext failed block
    cases session with
    | none => contradiction
    | some pool =>
        obtain ⟨after, same⟩ := step_balanced balanced freshNext taken
        rw [← after.settled.mem_iff, ← balanced.settled.mem_iff, same failed]

end

/-- A large block, one whose header finds no memory, a block given back, its entry
used again, and the end of the pool. -/
def retiredCalls : List Call :=
  [⟨.alloc 100, [4096]⟩, ⟨.memalign 100 64, [8192, 0]⟩, ⟨.free 4096, []⟩, ⟨.nalloc 200, [12288]⟩,
    ⟨.destoryPool, []⟩]

theorem retiredCalls_settled :
    Ledger.Settled largeEntry []
      [.large 4096 100, .carved 128 16, .returned 4096, .large 8192 100, .released 8192, .returned 0,
        .released 4096, .large 12288 200, .returned 12288, .released 12288, .freedBlock 64] := by
  have ran : (machine 48 64).Exec retiredCalls none
      [.large 4096 100, .carved 128 16, .returned 4096, .large 8192 100, .released 8192, .returned 0,
        .released 4096, .large 12288 200, .returned 12288, .released 12288, .freedBlock 64] :=
    (machine 48 64).exec_of_run (by decide)
  exact (largeBlocks_settled (by decide) ran (by decide)).1

end SimpleBasicComponents.MemoryPool
