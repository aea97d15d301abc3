import SimpleBasicComponents.LinkedQueue.Destroy

/-!
The sequences of calls that a linked queue survives.

Owns: what decides about the next call, read off the calls alone (how many nodes
wait and whether a push or a pop left them), the sequences that never turn round
on a single node, and what `queue_first` and `queue_destroy` do after them.
-/

namespace SimpleBasicComponents.LinkedQueue

open SimpleBasicComponents.Semantics
open Memory

/-- How many nodes wait, and whether the last call was a push. -/
structure Standing where
  count : Nat
  grew : Bool
deriving DecidableEq, Repr

namespace Standing

def after (standing : Standing) : Call → Standing
  | .push _ => ⟨standing.count + 1, true⟩
  | .pop => ⟨standing.count - 1, false⟩

/-- One node that was pushed takes no pop, one that a pop left over takes no push. -/
def GoesOn (standing : Standing) : Call → Prop
  | .push _ => standing ≠ ⟨1, false⟩
  | .pop => standing ≠ ⟨1, true⟩

instance (standing : Standing) (call : Call) : Decidable (standing.GoesOn call) := by
  cases call <;> unfold GoesOn <;> infer_instance

end Standing

def standing (calls : List Call) : Standing := calls.foldl Standing.after ⟨0, false⟩

/-- No call of the sequence turns round on a single node. -/
def Straight (calls : List Call) : Prop :=
  Historically (fun earlier call => (standing earlier).GoesOn call) calls

instance (calls : List Call) : Decidable (Straight calls) := by
  unfold Straight
  infer_instance

@[simp] theorem standing_snoc (calls : List Call) (call : Call) :
    standing (calls ++ [call]) = (standing calls).after call := by
  simp [standing]

variable {queue next : Queue} {events shown : List Event} {calls : List Call} {call : Call}

/-! ### The state follows the calls -/

/-- Which of the shapes a queue of one node has. -/
structure Stands (queue : Queue) (events : List Event) (calls : List Call) : Prop where
  count : (pending events).length = (standing calls).count
  lone : Lone queue ↔ standing calls = ⟨1, true⟩
  turned : Turned queue ↔ standing calls = ⟨1, false⟩

theorem Tidy.length_of_lone (tidy : Tidy queue events) (lone : Lone queue) :
    (pending events).length = 1 := by
  have ⟨addr, data, isPending, _⟩ := tidy.fresh_of_lone lone
  rw [isPending, List.length_singleton]

/-- A lone node is in both links of the head. -/
theorem Tidy.not_turned_of_lone (tidy : Tidy queue events) (lone : Lone queue) : ¬ Turned queue := by
  have ⟨addr, data, isPending, head, _⟩ := tidy.fresh_of_lone lone
  have notHead : 0 ≠ addr := @Tidy.positive _ _ tidy (addr, data) (by simp [isPending])
  rintro ⟨after, node, loads, isHead, -⟩
  rw [tidy.head] at loads isHead
  obtain ⟨rfl, rfl⟩ := Prod.mk.inj (Option.some.inj (head.load.symm.trans loads))
  exact notHead (Option.some.inj isHead).symm

/-- The single node of a queue was just pushed or is left over. -/
theorem Tidy.lone_or_turned (tidy : Tidy queue events) (single : (pending events).length = 1) :
    Lone queue ∨ Turned queue := by
  have shape := tidy.shape
  have positive := @Tidy.positive _ _ tidy
  have ⟨memory, start⟩ := queue
  obtain rfl : start = some 0 := tidy.head
  generalize pending events = waiting at shape positive single
  cases shape with
  | nothing head => contradiction
  | fresh head node =>
      have notHead := positive (List.mem_singleton_self _)
      exact .inl ⟨_, _, _, _, head.load, by simpa using notHead.symm, node.load, rfl⟩
  | left head node popped =>
      have notHead := positive (List.mem_singleton_self _)
      exact .inr ⟨_, _, head.load, rfl, by simpa using notHead.symm⟩
  | many head linked isLast => simp at single

theorem Tidy.length_of_turned (tidy : Tidy queue events) (turned : Turned queue) :
    (pending events).length = 1 := by
  have ⟨after, found, loads, isHead, notHead⟩ := turned
  have shape := tidy.shape
  have positive := @Tidy.positive _ _ tidy
  have ⟨memory, start⟩ := queue
  obtain rfl : start = some 0 := tidy.head
  generalize pending events = waiting at shape positive
  have same {other : Node} (live : memory.Live 0 other) : found = other :=
    (Prod.mk.inj (Option.some.inj (live.load.symm.trans loads))).2.symm
  cases shape with
  | nothing head =>
      rw [same head] at notHead
      exact absurd rfl notHead
  | fresh head node => rfl
  | left head node popped => rfl
  | @many first second last rest head linked isLast =>
      rw [same head] at isHead
      have lastPositive := positive (List.mem_cons_of_mem first (List.mem_of_getLast? isLast))
      exact absurd (Option.some.inj isHead).symm lastPositive

/-- The first node is lone. -/
theorem Tidy.lone_push (tidy : Tidy queue events) (isEmpty : pending events = []) {data : Ptr}
    (steps : step queue (.push data) = some (next, shown)) : Lone next := by
  have shape := tidy.shape
  have fresh := tidy.fresh
  rw [isEmpty] at shape
  cases shape with
  | nothing head =>
      have positive : 0 ≠ queue.memory.nodes.length := Nat.ne_of_lt head.lt
      have pushes := @queuePush_empty _ queue data none tidy.head head rfl fresh
      simp only [step, pushes, Option.some.injEq, Prod.mk.injEq] at steps
      have node := live_alloc rfl fresh ⟨none, none, data⟩
      have headAfter := ((head.alloc ⟨none, none, data⟩).put_self
        ⟨some queue.memory.nodes.length, some queue.memory.nodes.length, none⟩).put_other positive.symm
          ⟨some queue.memory.nodes.length, some queue.memory.nodes.length, data⟩
      have nodeAfter := (node.put_other positive
        ⟨some queue.memory.nodes.length, some queue.memory.nodes.length, none⟩).put_self
          ⟨some queue.memory.nodes.length, some queue.memory.nodes.length, data⟩
      rw [← steps.1]
      exact ⟨_, _, _, _, headAfter.load, by simpa using positive.symm, nodeAfter.load, rfl⟩

theorem Stands.keepsDirection_iff (stands : Stands queue events calls) :
    KeepsDirection queue call ↔ (standing calls).GoesOn call := by
  cases call with
  | push data => exact not_congr stands.turned
  | pop => exact not_congr stands.lone

private theorem Stands.push (tidy : Tidy queue events) (stands : Stands queue events calls) (data : Ptr)
    (goesOn : (standing calls).GoesOn (.push data)) :
    ∃ next shown, step queue (.push data) = some (next, shown) ∧ Tidy next (events ++ shown) ∧
      Stands next (events ++ shown) (calls ++ [.push data]) := by
  have ⟨next, steps, tidyNext, _⟩ := tidy.push (stands.keepsDirection_iff.mpr goesOn) data
  have longer : (pending (events ++ [.pushed queue.memory.nodes.length data])).length =
      (standing calls).count + 1 := by
    rw [pending_snoc, ← stands.count]
    exact List.length_append
  have lone_of_single (single : (standing calls).count + 1 = 1) : Lone next := by
    have nothing : (pending events).length = 0 := stands.count.trans (Nat.succ.inj single)
    exact tidy.lone_push (List.length_eq_zero_iff.mp nothing) steps
  refine ⟨next, _, steps, tidyNext, ?_, ?_, ?_⟩
  · rw [longer, standing_snoc]
    rfl
  · rw [standing_snoc, Standing.after, Standing.mk.injEq]
    constructor
    · intro lone
      exact ⟨longer.symm.trans (tidyNext.length_of_lone lone), rfl⟩
    · intro same
      exact lone_of_single same.1
  · rw [standing_snoc, Standing.after, Standing.mk.injEq]
    constructor
    · intro turned
      have single := longer.symm.trans (tidyNext.length_of_turned turned)
      exact absurd turned (tidyNext.not_turned_of_lone (lone_of_single single))
    · intro same
      exact absurd same.2 (by decide)

private theorem Stands.pop (tidy : Tidy queue events) (stands : Stands queue events calls)
    (goesOn : (standing calls).GoesOn .pop) :
    ∃ next shown, step queue .pop = some (next, shown) ∧ Tidy next (events ++ shown) ∧
      Stands next (events ++ shown) (calls ++ [.pop]) := by
  have notLone : ¬ Lone queue := stands.keepsDirection_iff.mpr goesOn
  have popped : ∃ next shown, step queue .pop = some (next, shown) ∧
      Tidy next (events ++ shown) ∧ ¬ Lone next ∧ pending (events ++ shown) = (pending events).tail := by
    cases isPending : pending events with
    | nil =>
        have ⟨steps, tidyNext⟩ := tidy.pop_nothing isPending
        refine ⟨queue, _, steps, tidyNext, notLone, ?_⟩
        rw [pending_snoc, isPending]
        rfl
    | cons item rest =>
        have ⟨next, steps, tidyNext, notLoneNext⟩ := tidy.pop isPending notLone
        refine ⟨next, _, steps, tidyNext, notLoneNext, ?_⟩
        rw [pending_snoc, isPending]
        rfl
  have ⟨next, shown, steps, tidyNext, notLoneNext, isPending⟩ := popped
  have shorter : (pending (events ++ shown)).length = (standing calls).count - 1 := by
    rw [isPending, List.length_tail, stands.count]
  refine ⟨next, shown, steps, tidyNext, ?_, ?_, ?_⟩
  · rw [shorter, standing_snoc]
    rfl
  · rw [standing_snoc, Standing.after, Standing.mk.injEq]
    exact ⟨fun lone => absurd lone notLoneNext, fun same => absurd same.2 (by decide)⟩
  · rw [standing_snoc, Standing.after, Standing.mk.injEq, ← shorter]
    constructor
    · intro turned
      exact ⟨tidyNext.length_of_turned turned, rfl⟩
    · intro single
      exact (tidyNext.lone_or_turned single.1).resolve_left notLoneNext

/-! ### Whole runs -/

/-- The run of a straight sequence, and where the queue stands after it. -/
theorem Straight.exec (straight : Straight calls) :
    ∃ queue events, machine.Exec calls queue events ∧ Tidy queue events ∧ Stands queue events calls := by
  induction calls using List.reverseRecOn with
  | nil =>
      refine ⟨_, _, .start, tidy_create, rfl, ?_, ?_⟩
      · refine ⟨fun lone => ?_, fun same => absurd same (by decide)⟩
        exact absurd (tidy_create.length_of_lone lone) (by decide)
      · refine ⟨fun turned => ?_, fun same => absurd same (by decide)⟩
        exact absurd (tidy_create.length_of_turned turned) (by decide)
  | append_singleton calls call inductionHypothesis =>
      have ⟨earlier, goesOn⟩ := historically_snoc_iff.mp straight
      have ⟨queue, events, exec, tidy, stands⟩ := inductionHypothesis earlier
      have step : ∃ next shown, step queue call = some (next, shown) ∧ Tidy next (events ++ shown) ∧
          Stands next (events ++ shown) (calls ++ [call]) := by
        cases call with
        | push data => exact stands.push tidy data goesOn
        | pop => exact stands.pop tidy goesOn
      have ⟨next, shown, steps, tidyNext, standsNext⟩ := step
      exact ⟨next, _, exec.step steps, tidyNext, standsNext⟩

theorem guarded_keepsDirection_iff (calls : List Call) :
    machine.Guarded KeepsDirection calls ↔ Straight calls := by
  induction calls using List.reverseRecOn with
  | nil => exact ⟨fun _ => historically_nil, fun _ => Machine.guarded_nil⟩
  | append_singleton calls call inductionHypothesis =>
      have last : Straight (calls ++ [call]) ↔ Straight calls ∧ (standing calls).GoesOn call :=
        historically_snoc_iff
      rw [Machine.guarded_snoc_iff, inductionHypothesis, last]
      refine and_congr_right fun straight => ?_
      have ⟨queue, events, exec, _, stands⟩ := Straight.exec straight
      rw [← stands.keepsDirection_iff]
      constructor
      · intro keeps
        exact keeps queue events exec
      · intro keeps other seen ran
        rwa [(exec.functional ran).1] at keeps

/-- But for reading the node it has freed, a queue serves exactly the straight sequences. -/
theorem completes_servesButReads_iff_straight (calls : List Call) :
    machine.Completes ServesButReads calls ↔ Straight calls :=
  (completes_servesButReads_iff_keepsDirection calls).trans (guarded_keepsDirection_iff calls)

/-! ### Looking and taking down -/

theorem Tidy.queueFirst (tidy : Tidy queue events) :
    queueFirst queue = some (queue.memory, (pending events).head?.bind Prod.snd) := by
  unfold LinkedQueue.queueFirst
  rw [tidy.isEmpty]
  cases isPending : pending events with
  | nil => rfl
  | cons item rest =>
      have shape := tidy.shape
      rw [isPending] at shape
      have ⟨_, node, head, live, holds⟩ := shape.front
      rw [tidy.head]
      simp only [Option.bind_eq_bind, Option.bind_some, List.isEmpty_cons, Bool.false_eq_true, if_false,
        head.load, live.load, holds, List.head?_cons]

/-- What the queue shows and how it can be taken down. -/
structure EndsWith (queue : Queue) (events : List Event) (standing : Standing) : Prop where
  first : queueFirst queue = some (queue.memory, (pending events).head?.bind Prod.snd)
  destroys : ∀ fuel, (queueDestroy fuel queue).isSome ↔ standing ≠ ⟨1, true⟩ ∧ standing.count < fuel
  freed : ∀ fuel memory, queueDestroy fuel queue = some memory →
    memory.freed = pushedNodes events ∧ memory.freed.Nodup

/-- After a straight sequence `queue_first` shows what the next pop returns and
touches nothing, and `queue_destroy` frees every node in the order of the pushes,
unless the last call has pushed the only node: then it never ends. -/
theorem Straight.endsWith (straight : Straight calls) :
    ∃ queue events, machine.Exec calls queue events ∧ EndsWith queue events (standing calls) := by
  have ⟨queue, events, exec, tidy, stands⟩ := straight.exec
  refine ⟨queue, events, exec, tidy.queueFirst, ?_, ?_⟩
  · intro fuel
    by_cases lone : Lone queue
    · rw [lone.queueDestroy, stands.lone.mp lone]
      simp
    · have ⟨memory, _, destroys⟩ := tidy.queueDestroy lone
      rw [destroys, stands.count, and_iff_right (mt stands.lone.mpr lone)]
      split <;> simp_all
  · intro fuel memory leaves
    by_cases lone : Lone queue
    · rw [lone.queueDestroy] at leaves
      contradiction
    · have ⟨last, freed, destroys⟩ := tidy.queueDestroy lone
      rw [destroys] at leaves
      split at leaves
      · rw [← Option.some.inj leaves, freed, tidy.addrs]
        exact ⟨rfl, List.nodup_range'⟩
      · contradiction

/-- Two nodes, of which one is popped. -/
theorem leftOver_endsWith :
    ∃ queue events, machine.Exec [.push (some 7), .push (some 8), .pop] queue events ∧
      EndsWith queue events ⟨1, false⟩ :=
  @Straight.endsWith [.push (some 7), .push (some 8), .pop] (by decide)

end SimpleBasicComponents.LinkedQueue
