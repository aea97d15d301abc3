import Mathlib.Data.List.GetD
import SimpleBasicComponents.EventReactor.Interest
import SimpleBasicComponents.Semantics.History

/-!
The receive buffers.

Owns: what a history shows of the bytes that came in on a descriptor, whichever
connections it has been, and what the item of the descriptor makes of them. Nothing
resets `buf_r_len`, neither `handle_write`, which is never called, nor `close` or
`accept`. The buffer collects what all the connections of one number have sent, what
is printed for a connection begins with what the earlier ones said (to the
connections themselves nothing is sent), and from the 1024th byte on `recv` has no
room left and the connection is taken for closed. A failure of `recv` takes one from
the length.
-/

namespace SimpleBasicComponents.EventReactor

open SimpleBasicComponents.Semantics

/-! ### What has come in -/

/-- The bytes of an event that came in on the descriptor. -/
def Event.dataOn (fd : Nat) : Event → List UInt8
  | .read other (some data) _ => if other = fd then data else []
  | _ => []

def Event.failuresOn (fd : Nat) : Event → Nat
  | .read other none _ => if other = fd then 1 else 0
  | _ => 0

/-- The bytes that came in on the descriptor, on all of its connections. -/
def dataOn (fd : Nat) (events : List Event) : List UInt8 := events.flatMap (Event.dataOn fd)

/-- How often `recv` failed on it. -/
def failuresOn (fd : Nat) (events : List Event) : Nat := (events.map (Event.failuresOn fd)).sum

/-- What is printed after a `recv` is all that has come in on the descriptor, up to the first
null byte. -/
def Told (earlier : List Event) : Event → Prop
  | .read fd received msg =>
      failuresOn fd (earlier ++ [.read fd received msg]) = 0 →
        msg = (dataOn fd (earlier ++ [.read fd received msg])).takeWhile (· ≠ 0)
  | _ => True

section

variable {events shown : List Event} {fd : Nat}

theorem dataOn_append (fd : Nat) (events shown : List Event) :
    dataOn fd (events ++ shown) = dataOn fd events ++ dataOn fd shown := List.flatMap_append

theorem failuresOn_append (fd : Nat) (events shown : List Event) :
    failuresOn fd (events ++ shown) = failuresOn fd events + failuresOn fd shown := by
  rw [failuresOn, List.map_append, List.sum_append]
  rfl

@[simp] theorem dataOn_read_some (fd : Nat) (data msg : List UInt8) :
    dataOn fd [.read fd (some data) msg] = data := by
  simp [dataOn, Event.dataOn]

@[simp] theorem dataOn_read_none (other fd : Nat) (msg : List UInt8) :
    dataOn fd [.read other none msg] = [] := rfl

@[simp] theorem failuresOn_read_some (other fd : Nat) (data msg : List UInt8) :
    failuresOn fd [.read other (some data) msg] = 0 := rfl

@[simp] theorem failuresOn_read_none (fd : Nat) (msg : List UInt8) :
    failuresOn fd [.read fd none msg] = 1 := by
  simp [failuresOn, Event.failuresOn]

/-- What comes in on another descriptor. -/
theorem silent_read {other : Nat} (apart : other ≠ fd) (received : Option (List UInt8))
    (msg : List UInt8) :
    dataOn fd [.read other received msg] = [] ∧ failuresOn fd [.read other received msg] = 0 := by
  cases received <;> simp [dataOn, failuresOn, Event.dataOn, Event.failuresOn, apart]

end

/-! ### What a buffer holds -/

/-- The item has got the bytes, and has seen so many failures. -/
structure NItem.Holds (item : NItem) (data : List UInt8) (failures : Nat) : Prop where
  length : item.bufRLen + UInt64.ofNat failures = UInt64.ofNat data.length
  fits : failures = 0 → data.length ≤ 1024
  content : failures = 0 → ∀ i, item.bufRead i = data.getD i 0

section

variable {item : NItem} {data more : List UInt8} {failures fd : Nat}

theorem NItem.Holds.bufRLen_eq (holds : item.Holds data 0) : item.bufRLen.toNat = data.length := by
  have same := holds.length
  have few := holds.fits rfl
  have isZero : UInt64.ofNat 0 = 0 := rfl
  rw [isZero, UInt64.add_zero] at same
  rw [same, UInt64.toNat_ofNat_of_lt']
  exact few.trans_lt (by decide)

/-- The buffer up to the first null byte, whether it is full or has zeros at the end. -/
theorem NItem.Holds.msg_eq (holds : item.Holds data 0) : item.msg = data.takeWhile (· ≠ 0) := by
  have few := holds.fits rfl
  have whole : (List.range bufferSize.toNat).map item.bufRead =
      data ++ List.replicate (1024 - data.length) 0 := by
    apply List.ext_getElem
    · have size : bufferSize.toNat = 1024 := rfl
      rw [List.length_map, List.length_range, List.length_append, List.length_replicate, size]
      omega
    · intro i _ _
      rw [List.getElem_map, List.getElem_range, holds.content rfl, List.getElem_append]
      split
      · rename_i inside
        rw [List.getD_eq_getElem _ _ inside]
      · rename_i outside
        rw [List.getD_eq_default _ _ (Nat.le_of_not_lt outside), List.getElem_replicate]
  unfold NItem.msg
  rw [whole, List.takeWhile_append]
  split
  · rename_i all
    have itself := (List.takeWhile_prefix (l := data) (· ≠ 0)).eq_of_length all
    rw [itself, List.takeWhile_replicate]
    simp
  · rfl

theorem NItem.Holds.failed (holds : item.Holds data failures) :
    (item.readInto fd none).Holds data (failures + 1) := by
  refine ⟨?_, fun none => absurd none (Nat.succ_ne_zero _), fun none => absurd none (Nat.succ_ne_zero _)⟩
  have same := holds.length
  have step : item.bufRLen + sizeOf none + UInt64.ofNat (failures + 1) =
      item.bufRLen + UInt64.ofNat failures := by
    rw [UInt64.ofNat_add, UInt64.add_assoc, ← UInt64.add_assoc (sizeOf none),
      UInt64.add_comm (sizeOf none), UInt64.add_assoc (UInt64.ofNat failures)]
    have cancel : sizeOf none + UInt64.ofNat 1 = 0 := by decide
    rw [cancel, UInt64.add_zero]
  exact step.trans same

theorem NItem.Holds.received (holds : item.Holds data failures)
    (fits : more.length ≤ item.room.toNat) (inside : item.bufRLen ≤ bufferSize) :
    (item.readInto fd (some more)).Holds (data ++ more) failures := by
  refine ⟨?_, ?_, ?_⟩
  · have step : item.bufRLen + sizeOf (some more.length) + UInt64.ofNat failures =
        item.bufRLen + UInt64.ofNat failures + UInt64.ofNat more.length := by
      unfold sizeOf
      rw [UInt64.add_assoc, UInt64.add_comm (UInt64.ofNat more.length), UInt64.add_assoc]
    rw [List.length_append, UInt64.ofNat_add, ← holds.length]
    exact step
  · intro none
    subst none
    have length := holds.bufRLen_eq
    have few := holds.fits rfl
    have room : item.room.toNat = 1024 - data.length := by
      rw [NItem.room, UInt64.toNat_sub_of_le _ _ inside, length]
      rfl
    rw [List.length_append]
    omega
  · intro none i
    subst none
    have length := holds.bufRLen_eq
    show (item.store more).bufRead i = _
    simp only [NItem.store]
    rw [length]
    split
    · rename_i behind
      rw [holds.content rfl, List.getD_eq_default data _ behind, List.getD_append_right _ _ _ _ behind]
    · rename_i before
      rw [holds.content rfl, List.getD_append _ _ _ _ (Nat.lt_of_not_le before)]

end

/-! ### Runs -/

section

variable {taken : Nat → Bool} {serverFd : Nat} {readies : List Ready} {ready : Ready}
  {reactor next : Reactor} {block : ItemBlock} {events shown : List Event} {fd : Nat}

/-- Each buffer holds what has come in on its descriptor. -/
def Collects (reactor : Reactor) (events : List Event) : Prop :=
  ∀ fd item, reactor.item fd = some item → item.Holds (dataOn fd events) (failuresOn fd events)

/-- A step that brings no bytes. -/
theorem Collects.same (collects : Collects reactor events)
    (buffers : ∀ fd item, next.item fd = some item → ∃ old, reactor.item fd = some old ∧
      item.bufRLen = old.bufRLen ∧ item.bufRead = old.bufRead)
    (silent : ∀ fd, dataOn fd shown = [] ∧ failuresOn fd shown = 0) :
    Collects next (events ++ shown) := by
  intro fd item isItem
  have ⟨old, wasItem, length, content⟩ := buffers fd item isItem
  have holds := collects fd old wasItem
  rw [dataOn_append, failuresOn_append, (silent fd).1, (silent fd).2, List.append_nil, Nat.add_zero]
  exact ⟨length ▸ holds.length, holds.fits, content ▸ holds.content⟩

/-- The buffers of a step that goes well, whose state is watched before and after. -/
theorem step_collects (watched : Watched serverFd reactor block (connections events))
    (collects : Collects reactor events) (taken : step reactor ready = some (next, shown))
    (running : next.crashed = false) : Collects next (events ++ shown) := by
  cases step_cases watched taken with
  | acceptFailed isServer failed | nothing isConnection noInput | closed isConnection ended =>
      exact collects.same (fun fd item isItem => ⟨item, isItem, rfl, rfl⟩) (fun fd => ⟨rfl, rfl⟩)
  | @accepted connfd isServer answer fresh small =>
      apply collects.same ?_ (fun fd => ⟨rfl, rfl⟩)
      intro fd item isItem
      rw [item_eq rfl] at isItem
      rw [item_eq watched.head]
      split at isItem
      · rename_i inTable
        refine ⟨block fd, if_pos inTable, ?_⟩
        obtain rfl := Option.some.inj isItem
        by_cases same : fd = connfd
        · rw [same, Function.update_self]
          exact ⟨rfl, rfl⟩
        · rw [Function.update_of_ne same]
          exact ⟨rfl, rfl⟩
      · contradiction
  | beyond isServer answer large crashed =>
      rw [crashed] at running
      contradiction
  | @read received isConnection answer something fits inside =>
      have small := watched.small ready.fd (.inr isConnection)
      have isItem := (item_eq watched.head ready.fd).trans (if_pos small)
      intro fd item isNow
      rw [item_eq rfl] at isNow
      split at isNow
      · rename_i inTable
        obtain rfl := Option.some.inj isNow
        rw [dataOn_append, failuresOn_append]
        by_cases same : fd = ready.fd
        · subst same
          rw [Function.update_self]
          have holds := collects _ _ isItem
          cases received with
          | none =>
              rw [dataOn_read_none, failuresOn_read_none, List.append_nil]
              exact holds.failed
          | some data =>
              rw [dataOn_read_some, failuresOn_read_some, Nat.add_zero]
              exact holds.received (fits data rfl) (inside (by simp))
        · rw [Function.update_of_ne same]
          have silent := silent_read (Ne.symm same) received
            ((block ready.fd).readInto ready.fd received).msg
          rw [silent.1, silent.2, List.append_nil, Nat.add_zero]
          exact collects fd (block fd) ((item_eq watched.head fd).trans (if_pos inTable))
      · contradiction
  | outside isConnection input answer something past => exact absurd running (by simp [Reactor.crash])

theorem step_told (watched : Watched serverFd reactor block (connections events))
    (collects : Collects reactor events) (told : Historically Told events)
    (taken : step reactor ready = some (next, shown)) : Historically Told (events ++ shown) := by
  cases step_cases watched taken with
  | acceptFailed | closed isConnection ended | accepted answer fresh small
  | beyond isServer answer large crashed => exact historically_snoc_iff.mpr ⟨told, trivial⟩
  | nothing isConnection noInput | outside isConnection input answer something past =>
      rw [List.append_nil]
      exact told
  | @read received isConnection answer something fits inside =>
      have small := watched.small ready.fd (.inr isConnection)
      have holds := collects _ _ ((item_eq watched.head ready.fd).trans (if_pos small))
      refine historically_snoc_iff.mpr ⟨told, ?_⟩
      intro noFailure
      rw [failuresOn_append] at noFailure
      rw [dataOn_append]
      cases received with
      | none =>
          rw [failuresOn_read_none] at noFailure
          contradiction
      | some data =>
          rw [failuresOn_read_some, Nat.add_zero] at noFailure
          rw [noFailure] at holds
          rw [dataOn_read_some]
          have now : ((block ready.fd).readInto ready.fd (some data)).Holds
              (dataOn ready.fd events ++ data) 0 :=
            holds.received (fits data rfl) (inside (by simp))
          exact now.msg_eq

theorem collects_start (running : (reactorInit taken serverFd).crashed = false) :
    Collects (reactorInit taken serverFd) [] := by
  intro fd item isItem
  rw [reactorInit_eq taken (small_of_running running), item_eq rfl] at isItem
  split at isItem
  · obtain rfl := Option.some.inj isItem
    by_cases same : fd = serverFd
    · rw [same, Function.update_self]
      exact ⟨rfl, fun _ => Nat.zero_le _, fun _ _ => rfl⟩
    · rw [Function.update_of_ne same]
      exact ⟨rfl, fun _ => Nat.zero_le _, fun _ _ => rfl⟩
  · contradiction

/-- The buffers of a run. -/
theorem exec_collects (ran : (machine taken serverFd).Exec readies reactor events) :
    Historically Told events ∧ (reactor.crashed = false → Collects reactor events) := by
  induction ran with
  | start => exact ⟨historically_nil, collects_start⟩
  | @step readies reactor next events shown ready before taken inductionHypothesis =>
      have running := running_of_step taken
      have ⟨block, watched⟩ := (exec_watched before).2 running
      have collects := inductionHypothesis.2 running
      exact ⟨step_told watched collects inductionHypothesis.1 taken,
        step_collects watched collects taken⟩

/-- A connection says something and goes; the next one gets its number. -/
def secondConnection : List Ready :=
  [⟨4, epollin, { connfd := some 5 }⟩, ⟨5, epollin, { received := some [104, 105] }⟩,
    ⟨5, epollin, { received := some [] }⟩, ⟨4, epollin, { connfd := some 5 }⟩,
    ⟨5, epollin, { received := some [33] }⟩]

end

/-! ### Runs that stay inside -/

/-- A connection that has a slot, and bytes only where the buffer has not been left. -/
structure Admissible (serverFd : Nat) (reactor : Reactor) (ready : Ready) : Prop where
  table : ready.fd = serverFd → ∀ connfd ∈ ready.answers.connfd, connfd < maxItemsSize
  inside : ready.fd ≠ serverFd → has ready.events epollin = true →
    ∀ data ∈ ready.answers.received, data ≠ [] →
      ∀ item ∈ reactor.item ready.fd, item.bufRLen ≤ bufferSize

section

variable {taken : Nat → Bool} {serverFd : Nat} {readies : List Ready} {ready : Ready}
  {reactor next : Reactor} {block : ItemBlock} {connected : Nat → Bool} {events shown : List Event}

theorem step_running_iff (watched : Watched serverFd reactor block connected)
    (running : reactor.crashed = false) (taken : step reactor ready = some (next, shown)) :
    next.crashed = false ↔ Admissible serverFd reactor ready := by
  have notServer (isConnection : connected ready.fd = true) : ready.fd ≠ serverFd := by
    intro same
    rw [same, watched.apart] at isConnection
    contradiction
  cases step_cases watched taken with
  | acceptFailed isServer failed =>
      refine ⟨fun _ => ⟨fun _ connfd member => ?_, fun apart => ?_⟩, fun _ => running⟩
      · rw [failed] at member
        contradiction
      · exact absurd (isServer.trans watched.server) apart
  | accepted isServer answer fresh small =>
      refine ⟨fun _ => ⟨fun _ connfd member => ?_, fun apart => ?_⟩, fun _ => running⟩
      · rw [answer] at member
        exact Option.some.inj member ▸ small
      · exact absurd (isServer.trans watched.server) apart
  | beyond isServer answer large crashed =>
      refine ⟨fun stays => absurd (crashed.symm.trans stays) (by simp), fun admissible => ?_⟩
      have small := admissible.table (isServer.trans watched.server) _ answer
      exact absurd small (Nat.not_lt.mpr large)
  | nothing isConnection noInput =>
      refine ⟨fun _ => ⟨fun same => absurd same (notServer isConnection), fun _ input => ?_⟩,
        fun _ => running⟩
      rw [noInput] at input
      contradiction
  | closed isConnection ended =>
      refine ⟨fun _ => ⟨fun same => absurd same (notServer isConnection), ?_⟩, fun _ => running⟩
      intro _ _ data member something
      rw [ended] at member
      exact absurd (Option.some.inj member).symm something
  | @read received isConnection answer something fits inside =>
      refine ⟨fun _ => ⟨fun same => absurd same (notServer isConnection), ?_⟩, fun _ => running⟩
      intro _ _ data member _ item isItem
      have small := watched.small ready.fd (.inr isConnection)
      rw [item_eq watched.head, if_pos small] at isItem
      rw [← Option.some.inj isItem]
      exact inside (fun none => by rw [answer, none] at member; contradiction)
  | outside isConnection input answer something past =>
      refine ⟨fun stays => absurd stays (by simp [Reactor.crash]), fun admissible => ?_⟩
      have small := watched.small ready.fd (.inr isConnection)
      have isItem := (item_eq watched.head ready.fd).trans (if_pos small)
      have within := admissible.inside (notServer isConnection) input _ answer something _ isItem
      exact absurd within (UInt64.not_le.mpr past)

/-- The loop never uses a null pointer and never leaves a buffer exactly if every connection has a
number below 1024 and no bytes come in on a descriptor on which `recv` has failed more often than
bytes had come in, so that `buf_r_len` has wrapped. -/
theorem running_iff_admissible (small : serverFd < maxItemsSize)
    (ran : (machine taken serverFd).Exec readies reactor events) :
    (machine taken serverFd).Always (fun reactor _ => reactor.crashed = false) readies ↔
      (machine taken serverFd).Guarded (Admissible serverFd) readies := by
  have running : (reactorInit taken serverFd).crashed = false := by rw [reactorInit_eq taken small]
  apply ran.always_iff_guarded running
  intro before ready reactor seen next shown _ exec running taken
  have ⟨block, watched⟩ := (exec_watched exec).2 running
  exact step_running_iff watched running taken

end

/-- `recv` fails on a connection before anything has come in, and then delivers a byte. -/
def afterReset : List Ready :=
  [⟨4, epollin, { connfd := some 5 }⟩, ⟨5, epollin, {}⟩, ⟨5, epollin, { received := some [33] }⟩]

theorem afterReset_not_admissible :
    ¬ (machine (fun fd => decide (fd < 4)) 4).Guarded (Admissible 4) afterReset := by
  have ran := (machine (fun fd => decide (fd < 4)) 4).exec_of_isSome afterReset (by decide)
  intro guarded
  have always := (running_iff_admissible (by decide) ran).mpr guarded
  exact absurd (always.last ran) (by decide)

end SimpleBasicComponents.EventReactor
