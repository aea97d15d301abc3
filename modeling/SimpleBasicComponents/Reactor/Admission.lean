import Mathlib.Tactic.SplitIfs
import SimpleBasicComponents.Reactor.Slots

/-!
What `accept_cb` does with the descriptors it is given.

Owns: the safety of admission, and the exact runs that have it. The limit is tested
on the number of a free slot while the slot used has the number of the descriptor,
and a descriptor that is refused stays open.
-/

namespace SimpleBasicComponents.Reactor

open SimpleBasicComponents.Semantics

/-- All slots reached are there, none in use has been set up anew, and what is open
was open from the start or has a slot. -/
structure Admitted (taken : Nat → Bool) (reactor : Ntyreactor) (events : List Event) : Prop where
  inside : ∀ index, .outside index ∉ events
  fresh : ∀ fd time, .accepted fd time 1 ∉ events
  noLeak : ∀ fd, reactor.isOpen fd = true → taken fd = true ∨ (reactor.events fd).status = 1

/-- A connection comes while a slot is free, with a descriptor that has a slot, and
`fcntl` succeeds. -/
def Admissible (reactor : Ntyreactor) : Call → Prop
  | .accept _ (some clientfd) nonblocking _ =>
      (∃ slot, 3 ≤ slot ∧ slot < maxEpollEvents ∧ (reactor.events slot).status = 0) ∧
        clientfd < maxEpollEvents ∧ nonblocking = true
  | _ => True

/-- An event that breaks nothing. -/
def Event.Harmless : Event → Prop
  | .refused _ | .outside _ => False
  | .accepted _ _ status => status ≠ 1
  | _ => True

variable {taken : Nat → Bool} {reactor next : Ntyreactor} {events shown : List Event} {calls : List Call}

theorem freeSlot_isSome_iff :
    (freeSlot reactor).isSome ↔
      ∃ slot, 3 ≤ slot ∧ slot < maxEpollEvents ∧ (reactor.events slot).status = 0 := by
  unfold freeSlot
  rw [List.find?_isSome]
  constructor
  · rintro ⟨slot, member, free⟩
    rw [List.mem_range'_1] at member
    exact ⟨slot, member.1, by unfold maxEpollEvents at member ⊢; omega, of_decide_eq_true free⟩
  · rintro ⟨slot, least, below, free⟩
    refine ⟨slot, ?_, decide_eq_true free⟩
    rw [List.mem_range'_1]
    unfold maxEpollEvents at below ⊢
    omega

/-! ### One step -/

/-- What an admissible connection shows, and what it does. -/
theorem acceptCb_of_admissible {slot clientfd : Nat} {nonblocking : Bool} {time : Int}
    (admissible : Admissible reactor (.accept slot (some clientfd) nonblocking time)) :
    (acceptCb reactor clientfd nonblocking time).2 =
      [.accepted clientfd time (reactor.events clientfd).status] := by
  obtain ⟨free, inTable, rfl⟩ := admissible
  obtain ⟨found, isFound⟩ := Option.isSome_iff_exists.mp (freeSlot_isSome_iff.mpr free)
  unfold acceptCb
  have same : freeSlot (reactor.openFd clientfd) = some found := isFound
  simp only [same, if_true, if_pos inTable]
  rfl

/-- A connection that is not admissible reaches behind the table or leaves its
descriptor open without a slot. -/
theorem acceptCb_of_not_admissible {slot clientfd : Nat} {nonblocking : Bool} {time : Int}
    (refused : ¬ Admissible reactor (.accept slot (some clientfd) nonblocking time)) :
    (∃ index, .outside index ∈ (acceptCb reactor clientfd nonblocking time).2) ∨
      (acceptCb reactor clientfd nonblocking time).1 = reactor.openFd clientfd := by
  unfold acceptCb
  simp only
  cases found : freeSlot (reactor.openFd clientfd) with
  | none => exact .inl ⟨maxEpollEvents, by simp⟩
  | some free =>
      have isFree := freeSlot_isSome_iff.mp (show (freeSlot reactor).isSome from
        Option.isSome_iff_exists.mpr ⟨free, found⟩)
      simp only
      split_ifs with succeeds inTable
      · exact absurd ⟨isFree, inTable, succeeds⟩ refused
      · exact .inl ⟨clientfd, List.mem_singleton.mpr rfl⟩
      · exact .inr rfl

theorem Event.OfConnection.harmless {event : Event} (ofConnection : event.OfConnection) :
    event.Harmless := by
  cases event with
  | received | sent | closed => trivial
  | listening | accepted | refused | swept | outside => contradiction

theorem Kept.step_harmless (kept : Kept taken reactor events) {call : Call}
    {outcome : Ntyreactor × List Event} (stepped : Stepped reactor call outcome)
    (admissible : Admissible reactor call) : ∀ event ∈ outcome.2, event.Harmless := by
  intro event member
  cases stepped with
  | addListener time isFree => exact List.mem_singleton.mp member ▸ trivial
  | noClient => exact absurd member List.not_mem_nil
  | accept slot nonblocking time isFree =>
      rw [acceptCb_of_admissible admissible, List.mem_singleton] at member
      rw [member]
      exact (kept.unused isFree).1
  | recv received time inUse => exact (recvCb_shown member).harmless
  | send sent time inUse => exact (sendCb_shown member).harmless
  | sweep now =>
      obtain ⟨fd, rfl⟩ := checkSlots_shown member
      trivial

/-! ### Whole runs -/

theorem Admitted.of_harmless (kept : Kept taken reactor events) (harmless : ∀ event ∈ events, event.Harmless) :
    Admitted taken reactor events where
  inside index member := harmless _ member
  fresh fd time member := harmless _ member rfl
  noLeak fd isOpen := by
    rcases kept.accounted fd isOpen with isTaken | inUse | refused | outside
    · exact .inl isTaken
    · exact .inr inUse
    · exact (harmless _ refused).elim
    · exact (harmless _ outside).elim

theorem Kept.admissible (kept : Kept taken reactor events) {call : Call} {outcome : Ntyreactor × List Event}
    (stepped : Stepped reactor call outcome) (admitted : Admitted taken outcome.1 (events ++ outcome.2)) :
    Admissible reactor call := by
  cases stepped with
  | accept slot nonblocking time isFree =>
      by_contra refused
      cases acceptCb_of_not_admissible refused with
      | inl reaches =>
          obtain ⟨index, member⟩ := reaches
          exact admitted.inside index (List.mem_append_right _ member)
      | inr opened =>
          have unused := kept.unused isFree
          have noLeak := admitted.noLeak
          rw [opened] at noLeak
          cases noLeak _ (update_true_iff.mpr (.inl rfl)) with
          | inl isTaken => exact absurd isTaken (by rw [unused.2]; decide)
          | inr inUse => exact unused.1 inUse
  | _ => trivial

/-- Whatever descriptors `accept` returns, admission stays safe exactly in the runs in
which every connection is admissible. A slot in use is never set up anew. -/
theorem admitted_iff_admissible (exec : (machine taken).Exec calls reactor events) :
    (machine taken).Always (Admitted taken) calls ↔ (machine taken).Guarded Admissible calls := by
  apply @Machine.Exec.always_iff_guarded_of_invariant _ _ _ (machine taken)
    (fun reactor events => Kept taken reactor events ∧ ∀ event ∈ events, event.Harmless) _ _ _ _ _ exec
  · have start := kept_start taken
    exact ⟨⟨start, by simp⟩, .of_harmless start (by simp)⟩
  · intro before call state seen next shown _ _ _ invariant _ stepped
    have stepped := step_cases stepped
    constructor
    · exact invariant.1.admissible stepped
    · intro admissible
      have later := invariant.1.step_harmless stepped admissible
      exact .of_harmless (invariant.1.step stepped) (List.forall_mem_append.mpr ⟨invariant.2, later⟩)
  · intro before call state seen next shown _ _ _ invariant _ admissible stepped
    have stepped := step_cases stepped
    have later := invariant.1.step_harmless stepped admissible
    exact ⟨invariant.1.step stepped, List.forall_mem_append.mpr ⟨invariant.2, later⟩⟩

/-- The process has 1023 descriptors open, and makes the last one below 1024 its listener. -/
private def busy (fd : Nat) : Bool := decide (fd ≠ 3 ∧ fd < maxEpollEvents)

private theorem behind_exec :
    ∃ reactor, (machine busy).Exec [.addListener 3 0, .accept 3 (some 1024) true 1] reactor
      [.listening 3, .outside 1024] := by
  have ran : ((machine busy).run [.addListener 3 0, .accept 3 (some 1024) true 1]).map Prod.snd =
      some [.listening 3, .outside 1024] := by
    decide +kernel
  obtain ⟨outcome, isRun, same⟩ := Option.map_eq_some_iff.mp ran
  exact ⟨outcome.1, Machine.exec_of_run _ (isRun.trans (congrArg some (Prod.ext rfl same)))⟩

/-- The only client is given the slot behind the table while nearly all slots are free. -/
theorem client_behind_table : ¬ ∀ (taken : Nat → Bool) (calls : List Call) (reactor : Ntyreactor)
    (events : List Event), (machine taken).Exec calls reactor events → Admitted taken reactor events := by
  intro claimed
  obtain ⟨reactor, exec⟩ := behind_exec
  exact (claimed _ _ _ _ exec).inside 1024 (by simp)

theorem client_not_admissible :
    ¬ (machine fun fd => decide (fd ≠ 3 ∧ fd < maxEpollEvents)).Guarded Admissible
      [.addListener 3 0, .accept 3 (some 1024) true 1] := by
  intro guarded
  obtain ⟨reactor, exec⟩ := behind_exec
  have always := (admitted_iff_admissible exec).mpr guarded
  exact (always.last exec).inside 1024 (by simp)

end SimpleBasicComponents.Reactor
