import SimpleBasicComponents.MemoryPool.LargeBlocks

/-!
The recursion of the memory pool.

Owns: when the requests return while `malloc` and `posix_memalign` succeed. A
large block needs a header of 16 bytes, which `mp_alloc_large` takes from
`mp_alloc`; in a pool of fewer bytes the header is a large block itself.
-/

namespace SimpleBasicComponents.MemoryPool

open SimpleBasicComponents.Semantics

/-- With calls of `mp_alloc` nested at most `depth` deep, the call returns as long
as `malloc` and `posix_memalign` succeed, `supply` being what they answer. -/
def ReturnsWithin (depth : Nat) (call : Nat → List UInt64 → Option Reply) : Prop :=
  ∀ supply : Nat → UInt64, (∀ index, supply index ≠ 0) →
    ∃ asked, (call depth ((List.range asked).map supply)).isSome

/-- The limit of the pool stays, and where it is less than a header `pool->large`
is empty. -/
structure Limited (limit : UInt64) (pool : Pool) : Prop where
  max : pool.max = limit
  headless : limit < sizeofLarge → pool.large = []

section

variable {limit size : UInt64} {pool : Pool} {depth : Nat} {answers : List UInt64} {reply : Reply}

theorem Limited.same {next : Pool} (limited : Limited limit pool) (max : next.max = pool.max)
    (large : next.large = pool.large) : Limited limit next :=
  ⟨max.trans limited.max, fun tight => large.trans (limited.headless tight)⟩

/-! ### What a request leaves -/

theorem allocSmall_limited {place : UInt64 → UInt64} (limited : Limited limit pool)
    (replies : allocSmall place pool size answers = some reply) : Limited limit reply.pool := by
  have ⟨large, max, _⟩ := allocSmall_large replies
  exact limited.same max large

/-- Above a limit that leaves no room for a header a request returns `NULL`, if at all. -/
def RefusedAbove (limit size : UInt64) (reply : Reply) : Prop :=
  limit < size → limit < sizeofLarge → reply.pointer = 0

private theorem pushLarge_limited {p n : UInt64}
    (header : ∀ entry, mpAlloc depth pool sizeofLarge answers = some entry →
      Limited limit entry.pool ∧ RefusedAbove limit sizeofLarge entry)
    (replies : pushLarge (mpAlloc depth) pool p n answers = some reply) :
    Limited limit reply.pool ∧ RefusedAbove limit n reply := by
  have ⟨entry, served, outcome⟩ := pushLarge_cases replies
  have ⟨limited, refused⟩ := header entry served
  cases outcome with
  | inl failed =>
      rw [failed.2]
      exact ⟨limited, fun _ _ => rfl⟩
  | inr pushed =>
      have roomy (tight : limit < sizeofLarge) : False := pushed.1 (refused tight tight)
      rw [pushed.2]
      refine ⟨⟨limited.max, fun tight => (roomy tight).elim⟩, ?_⟩
      intro _ tight
      exact (roomy tight).elim

private theorem mpAllocLarge_limited (limited : Limited limit pool)
    (header : ∀ (answers : List UInt64) (entry : Reply),
      mpAlloc depth pool sizeofLarge answers = some entry →
      Limited limit entry.pool ∧ RefusedAbove limit sizeofLarge entry)
    (replies : mpAllocLarge (mpAlloc depth) pool size answers = some reply) :
    Limited limit reply.pool ∧ RefusedAbove limit size reply := by
  obtain ⟨p, rest, -, ⟨-, rfl⟩ | ⟨-, large, reused, rfl⟩ | ⟨-, -, pushes⟩⟩ :=
    mpAllocLarge_cases replies
  · exact ⟨limited, fun _ _ => rfl⟩
  · -- an entry is only reused where there is one
    have roomy (tight : limit < sizeofLarge) : False := by
      rw [limited.headless tight] at reused
      contradiction
    refine ⟨⟨limited.max, fun tight => (roomy tight).elim⟩, ?_⟩
    intro _ tight
    exact (roomy tight).elim
  · exact pushLarge_limited (header rest) pushes

theorem mpAlloc_limited (limited : Limited limit pool)
    (replies : mpAlloc depth pool size answers = some reply) :
    Limited limit reply.pool ∧ RefusedAbove limit size reply := by
  induction depth generalizing size answers reply with
  | zero => contradiction
  | succ depth inductionHypothesis =>
      unfold mpAlloc at replies
      split at replies
      · rename_i small
        refine ⟨allocSmall_limited limited replies, ?_⟩
        intro above
        rw [limited.max] at small
        exact absurd above (UInt64.not_lt.mpr small)
      · exact mpAllocLarge_limited limited (fun _ _ => inductionHypothesis) replies

theorem mpNalloc_limited (limited : Limited limit pool)
    (replies : mpNalloc depth pool size answers = some reply) : Limited limit reply.pool := by
  unfold mpNalloc at replies
  split at replies
  · exact allocSmall_limited limited replies
  · exact (mpAllocLarge_limited limited (fun _ _ => mpAlloc_limited limited) replies).1

theorem mpCalloc_limited (limited : Limited limit pool)
    (replies : mpCalloc depth pool size answers = some reply) : Limited limit reply.pool := by
  obtain ⟨first, served, ⟨-, rfl⟩ | ⟨-, rfl⟩⟩ := mpCalloc_cases replies
  · exact (mpAlloc_limited limited served).1
  · exact (mpAlloc_limited limited served).1

theorem mpMemalign_limited {alignment : UInt64} (limited : Limited limit pool)
    (replies : mpMemalign depth pool size alignment answers = some reply) :
    Limited limit reply.pool := by
  obtain ⟨p, rest, -, ⟨-, rfl⟩ | ⟨-, pushes⟩⟩ := mpMemalign_cases replies
  · exact limited
  · exact (pushLarge_limited (fun _ => mpAlloc_limited limited) pushes).1

/-! ### Requests that do not return -/

/-- What a system that does not fail answers. -/
def Succeed (answers : List UInt64) : Prop := ∀ answer ∈ answers, answer ≠ 0

private theorem Succeed.tail {p : UInt64} (succeed : Succeed (p :: answers)) : Succeed answers :=
  fun answer member => succeed answer (List.mem_cons_of_mem _ member)

private theorem pushLarge_ne_some {p n : UInt64}
    (header : ∀ entry, mpAlloc depth pool sizeofLarge answers ≠ some entry) :
    pushLarge (mpAlloc depth) pool p n answers ≠ some reply := by
  intro replies
  have ⟨entry, served, _⟩ := pushLarge_cases replies
  exact header entry served

private theorem mpAllocLarge_ne_some (empty : pool.large = []) (succeed : Succeed answers)
    (header : ∀ answers, Succeed answers → ∀ entry, mpAlloc depth pool sizeofLarge answers ≠ some entry) :
    mpAllocLarge (mpAlloc depth) pool size answers ≠ some reply := by
  intro replies
  obtain ⟨p, rest, rfl, ⟨null, -⟩ | ⟨-, large, reused, -⟩ | ⟨-, -, pushes⟩⟩ :=
    mpAllocLarge_cases replies
  · exact succeed p List.mem_cons_self null
  · rw [empty] at reused
    contradiction
  · exact pushLarge_ne_some (header rest succeed.tail) pushes

/-- The header of every large block is a large block in its turn. -/
theorem mpAlloc_ne_some (limited : Limited limit pool) (tight : limit < sizeofLarge)
    (above : limit < size) (succeed : Succeed answers) :
    mpAlloc depth pool size answers ≠ some reply := by
  induction depth generalizing size answers reply with
  | zero =>
      intro replies
      contradiction
  | succ depth inductionHypothesis =>
      have big : ¬ size ≤ pool.max := by
        rw [limited.max]
        exact UInt64.not_le.mpr above
      unfold mpAlloc
      rw [if_neg big]
      apply mpAllocLarge_ne_some (limited.headless tight) succeed
      intro _ later _
      exact inductionHypothesis tight later

theorem mpNalloc_ne_some (limited : Limited limit pool) (tight : limit < sizeofLarge)
    (above : limit < size) (succeed : Succeed answers) :
    mpNalloc depth pool size answers ≠ some reply := by
  have big : ¬ size ≤ pool.max := by
    rw [limited.max]
    exact UInt64.not_le.mpr above
  unfold mpNalloc
  rw [if_neg big]
  apply mpAllocLarge_ne_some (limited.headless tight) succeed
  intro _ later _
  exact mpAlloc_ne_some limited tight tight later

theorem mpCalloc_ne_some (limited : Limited limit pool) (tight : limit < sizeofLarge)
    (above : limit < size) (succeed : Succeed answers) :
    mpCalloc depth pool size answers ≠ some reply := by
  intro replies
  have ⟨_, served, _⟩ := mpCalloc_cases replies
  exact mpAlloc_ne_some limited tight above succeed served

theorem mpMemalign_ne_some {alignment : UInt64} (limited : Limited limit pool)
    (tight : limit < sizeofLarge) (succeed : Succeed answers) :
    mpMemalign depth pool size alignment answers ≠ some reply := by
  intro replies
  obtain ⟨p, rest, rfl, ⟨null, -⟩ | ⟨-, pushes⟩⟩ := mpMemalign_cases replies
  · exact succeed p List.mem_cons_self null
  · exact pushLarge_ne_some (fun _ => mpAlloc_ne_some limited tight tight succeed.tail) pushes

theorem not_returnsWithin {call : Nat → List UInt64 → Option Reply}
    (diverges : ∀ answers, Succeed answers → ∀ reply, call depth answers ≠ some reply) :
    ¬ ReturnsWithin depth call := by
  intro returns
  have ⟨asked, returned⟩ := returns (fun _ => 1) fun _ => (by decide : (1 : UInt64) ≠ 0)
  have ⟨reply, replies⟩ := Option.isSome_iff_exists.mp returned
  apply diverges _ _ reply replies
  intro answer member
  have ⟨_, _, same⟩ := List.mem_map.mp member
  rw [← same]
  decide

/-! ### Requests that return -/

/-- A request of at most `pool->max` bytes asks for a block at most. -/
private theorem allocSmall_isSome (place : UInt64 → UInt64) (pool : Pool) (size answer : UInt64)
    (rest : List UInt64) : (allocSmall place pool size (answer :: rest)).isSome := by
  unfold allocSmall
  split
  · rfl
  · unfold mpAllocBlock
    simp only
    split <;> rfl

private theorem mpAlloc_isSome (depth : Nat) (small : size ≤ pool.max) (answer : UInt64)
    (rest : List UInt64) : (mpAlloc (depth + 1) pool size (answer :: rest)).isSome := by
  unfold mpAlloc
  rw [if_pos small]
  exact allocSmall_isSome _ _ _ _ _

private theorem pushLarge_isSome {p n : UInt64} (roomy : sizeofLarge ≤ pool.max) (answer : UInt64)
    (rest : List UInt64) : (pushLarge (mpAlloc (depth + 1)) pool p n (answer :: rest)).isSome := by
  have ⟨entry, served⟩ := Option.isSome_iff_exists.mp (mpAlloc_isSome depth roomy answer rest)
  unfold pushLarge
  rw [served]
  simp only
  split <;> rfl

private theorem mpAllocLarge_isSome (roomy : sizeofLarge ≤ pool.max) (p answer : UInt64)
    (rest : List UInt64) :
    (mpAllocLarge (mpAlloc (depth + 1)) pool size (p :: answer :: rest)).isSome := by
  unfold mpAllocLarge
  simp only
  split
  · rfl
  · split
    · rfl
    · exact pushLarge_isSome roomy answer rest

/-- Two answers are enough for a request, and `mp_alloc` called by `mp_alloc_large`
does not call it again. -/
theorem mpAlloc_returns (served : sizeofLarge ≤ pool.max ∨ size ≤ pool.max) (p answer : UInt64) :
    (mpAlloc (depth + 2) pool size [p, answer]).isSome := by
  by_cases small : size ≤ pool.max
  · exact mpAlloc_isSome _ small p [answer]
  · unfold mpAlloc
    rw [if_neg small]
    exact mpAllocLarge_isSome (served.resolve_right small) p answer []

theorem mpNalloc_returns (served : sizeofLarge ≤ pool.max ∨ size ≤ pool.max) (p answer : UInt64) :
    (mpNalloc (depth + 1) pool size [p, answer]).isSome := by
  unfold mpNalloc
  split
  · exact allocSmall_isSome _ _ _ _ _
  · rename_i big
    exact mpAllocLarge_isSome (served.resolve_right big) p answer []

theorem mpCalloc_returns (served : sizeofLarge ≤ pool.max ∨ size ≤ pool.max) (p answer : UInt64) :
    (mpCalloc (depth + 2) pool size [p, answer]).isSome := by
  have ⟨first, replies⟩ := Option.isSome_iff_exists.mp
    (@mpAlloc_returns size pool depth served p answer)
  unfold mpCalloc
  rw [replies]
  simp only
  split <;> rfl

theorem mpMemalign_returns (roomy : sizeofLarge ≤ pool.max) (alignment p answer : UInt64) :
    (mpMemalign (depth + 1) pool size alignment [p, answer]).isSome := by
  unfold mpMemalign
  simp only
  split
  · rfl
  · exact pushLarge_isSome roomy answer []

theorem returnsWithin_of_two {call : Nat → List UInt64 → Option Reply}
    (returns : ∀ p answer, (call depth [p, answer]).isSome) : ReturnsWithin depth call :=
  fun supply _ => ⟨2, returns (supply 0) (supply 1)⟩

end

/-! ### Pools that a run reaches -/

/-- `pool->max` of a pool of the size. -/
def limitOf (size : UInt64) : UInt64 :=
  if size < mpMaxAllocFromPool then size else mpMaxAllocFromPool

theorem sizeofLarge_le_limitOf_iff {size : UInt64} : sizeofLarge ≤ limitOf size ↔ 16 ≤ size := by
  unfold limitOf
  split
  · rfl
  · rename_i big
    have page : mpMaxAllocFromPool ≤ size := UInt64.not_lt.mp big
    have header : (16 : UInt64) ≤ mpMaxAllocFromPool := by decide
    exact ⟨fun _ => UInt64.le_trans header page, fun _ => header⟩

/-- Where the limit is less than a header it is the size of the pool. -/
theorem limitOf_eq {size : UInt64} (tight : ¬ 16 ≤ size) : limitOf size = size := by
  have small : size < mpMaxAllocFromPool :=
    UInt64.lt_trans (UInt64.not_le.mp tight) (by decide)
  exact if_pos small

section

variable {size base : UInt64} {found : List Node} {pool : Pool}

private theorem step_limited {limit : UInt64} {call : Call} {next : Pool} {shown : List Event}
    (limited : Limited limit pool) (taken : step (some pool) call = some (some next, shown)) :
    Limited limit next := by
  obtain ⟨asked, answers⟩ := call
  cases asked with
  | alloc n =>
      obtain ⟨reply, replies, same, -⟩ := answered_eq taken
      obtain rfl := Option.some.inj same
      exact (mpAlloc_limited limited replies).1
  | nalloc n =>
      obtain ⟨reply, replies, same, -⟩ := answered_eq taken
      obtain rfl := Option.some.inj same
      exact mpNalloc_limited limited replies
  | calloc n =>
      obtain ⟨reply, replies, same, -⟩ := answered_eq taken
      obtain rfl := Option.some.inj same
      exact mpCalloc_limited limited replies
  | memalign n alignment =>
      obtain ⟨reply, replies, same, -⟩ := answered_eq taken
      obtain rfl := Option.some.inj same
      exact mpMemalign_limited limited replies
  | free p =>
      obtain ⟨same, -⟩ := Prod.mk.inj (Option.some.inj taken)
      obtain rfl := Option.some.inj same
      refine ⟨limited.max, fun tight => ?_⟩
      show (freeEntry p pool.large).1 = []
      rw [limited.headless tight]
      rfl
  | resetPool =>
      obtain ⟨same, -⟩ := Prod.mk.inj (Option.some.inj taken)
      obtain rfl := Option.some.inj same
      exact ⟨limited.max, fun _ => rfl⟩
  | destoryPool => exact absurd (Prod.mk.inj (Option.some.inj taken)).1 (by simp)

theorem limited_of_exec {calls : List Call} {session : Option Pool} {events : List Event}
    (ran : (machineFound size base found).Exec calls session events) :
    ∀ pool, session = some pool → Limited (limitOf size) pool := by
  refine Machine.Exec.of_open (fun _ pool _ => Limited (limitOf size) pool) (fun _ => rfl) ?_ ?_ ran
  · intro pool same
    obtain rfl := Option.some.inj same
    exact ⟨rfl, fun _ => rfl⟩
  · intro calls earlier events call next shown _ limited taken
    exact step_limited limited taken

/-- In every state of a pool, wherever `head->next` leads: while the system does
not fail, the requests return, with `mp_alloc` called once more at most, exactly
if a header fits the pool or the request needs none. -/
theorem requests_return_iff {calls : List Call} {events : List Event}
    (ran : (machineFound size base found).Exec calls (some pool) events) (n alignment : UInt64)
    {depth : Nat} (twice : 2 ≤ depth) :
    (ReturnsWithin depth (fun depth => mpAlloc depth pool n) ↔ 16 ≤ size ∨ n ≤ size) ∧
      (ReturnsWithin depth (fun depth => mpNalloc depth pool n) ↔ 16 ≤ size ∨ n ≤ size) ∧
      (ReturnsWithin depth (fun depth => mpCalloc depth pool n) ↔ 16 ≤ size ∨ n ≤ size) ∧
      (ReturnsWithin depth (fun depth => mpMemalign depth pool n alignment) ↔ 16 ≤ size) := by
  have limited := limited_of_exec ran pool rfl
  obtain ⟨depth, rfl⟩ := Nat.exists_eq_add_of_le' twice
  have served (condition : 16 ≤ size ∨ n ≤ size) : sizeofLarge ≤ pool.max ∨ n ≤ pool.max := by
    rw [limited.max]
    by_cases roomy : 16 ≤ size
    · exact .inl (sizeofLarge_le_limitOf_iff.mpr roomy)
    · rw [limitOf_eq roomy]
      exact .inr (condition.resolve_left roomy)
  have tight (small : ¬ 16 ≤ size) : limitOf size < sizeofLarge :=
    UInt64.not_le.mp fun header => small (sizeofLarge_le_limitOf_iff.mp header)
  have above (condition : ¬ (16 ≤ size ∨ n ≤ size)) : limitOf size < sizeofLarge ∧ limitOf size < n := by
    have ⟨small, more⟩ := not_or.mp condition
    refine ⟨tight small, ?_⟩
    rw [limitOf_eq small]
    exact UInt64.not_le.mp more
  refine ⟨⟨?_, ?_⟩, ⟨?_, ?_⟩, ⟨?_, ?_⟩, ⟨?_, ?_⟩⟩
  · contrapose
    intro condition
    have ⟨small, more⟩ := above condition
    exact not_returnsWithin fun _ succeed _ => mpAlloc_ne_some limited small more succeed
  · intro condition
    exact returnsWithin_of_two (mpAlloc_returns (served condition))
  · contrapose
    intro condition
    have ⟨small, more⟩ := above condition
    exact not_returnsWithin fun _ succeed _ => mpNalloc_ne_some limited small more succeed
  · intro condition
    exact returnsWithin_of_two (mpNalloc_returns (served condition))
  · contrapose
    intro condition
    have ⟨small, more⟩ := above condition
    exact not_returnsWithin fun _ succeed _ => mpCalloc_ne_some limited small more succeed
  · intro condition
    exact returnsWithin_of_two (mpCalloc_returns (served condition))
  · contrapose
    intro small
    exact not_returnsWithin fun _ succeed _ => mpMemalign_ne_some limited (tight small) succeed
  · intro roomy
    apply returnsWithin_of_two
    apply mpMemalign_returns
    rw [limited.max]
    exact sizeofLarge_le_limitOf_iff.mpr roomy

end

/-- A small request and a large one, whose header is behind it. -/
def headerCalls : List Call := [⟨.alloc 8, []⟩, ⟨.nalloc 100, [4096]⟩]

theorem headerCalls_mpAlloc_returns :
    ReturnsWithin 2 fun depth =>
      mpAlloc depth ⟨64, [], ⟨88, 176, 184, 0⟩, [], [⟨160, 4096⟩]⟩ 5000 := by
  have ran : (machineFound 64 64 []).Exec headerCalls
      (some ⟨64, [], ⟨88, 176, 184, 0⟩, [], [⟨160, 4096⟩]⟩)
      [.carved 128 8, .returned 128, .large 4096 100, .carved 160 16, .returned 4096] :=
    (machineFound 64 64 []).exec_of_run (by decide)
  exact (requests_return_iff ran 5000 64 (Nat.le_refl 2)).1.mpr (.inl (by decide))

/-- In a pool of 8 bytes a request for 9 never returns. -/
theorem nineOfEight_diverges :
    ∃ pool, (machineFound 8 64 []).Exec [] (some pool) [] ∧
      ∀ depth, ¬ ReturnsWithin depth fun depth => mpAlloc depth pool 9 := by
  refine ⟨mpCreatePool 8 64 [], .start, ?_⟩
  intro depth
  have limited : Limited 8 (mpCreatePool 8 64 []) := ⟨by decide, fun _ => rfl⟩
  exact not_returnsWithin fun _ succeed _ =>
    mpAlloc_ne_some limited (by decide) (by decide) succeed

end SimpleBasicComponents.MemoryPool
