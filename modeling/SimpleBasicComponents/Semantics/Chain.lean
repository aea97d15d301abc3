import Mathlib.Data.List.Nodup
import SimpleBasicComponents.Semantics.Heap

/-!
Singly linked chains.

`next` reads the link of a cell; it has no result where reading faults.
`Path next start addrs stop` says that the links lead from the cell `start`
through the cells `addrs` in turn, and that the last one's link is `stop`.
-/

namespace SimpleBasicComponents.Semantics

def Path (next : Addr → Option (Option Addr)) : Addr → List Addr → Option Addr → Prop
  | start, [], stop => next start = some stop
  | start, addr :: rest, stop => next start = some (some addr) ∧ Path next addr rest stop

variable {next after : Addr → Option (Option Addr)} {start addr : Addr}
  {addrs before rest : List Addr} {stop : Option Addr}

/-- The cell a path ends in. -/
def pathEnd (start : Addr) (addrs : List Addr) : Addr := (start :: addrs).getLast (by simp)

theorem pathEnd_nil : pathEnd start [] = start := rfl

theorem pathEnd_cons : pathEnd start (addr :: rest) = pathEnd addr rest := by
  simp [pathEnd]

theorem pathEnd_append_cons :
    pathEnd start (before ++ addr :: rest) = pathEnd addr rest := by
  induction before generalizing start with
  | nil => exact pathEnd_cons
  | cons head before inductionHypothesis => rw [List.cons_append, pathEnd_cons, inductionHypothesis]

theorem pathEnd_mem : pathEnd start addrs ∈ start :: addrs := List.getLast_mem _

theorem path_append_cons :
    Path next start (before ++ addr :: rest) stop ↔
      Path next start before (some addr) ∧ Path next addr rest stop := by
  induction before generalizing start with
  | nil => rfl
  | cons head before inductionHypothesis =>
      simp only [List.cons_append, Path, inductionHypothesis, and_assoc]

/-- A path is a path to its last cell and the link of that cell. -/
theorem path_append_iff :
    Path next start (before ++ rest) stop ↔
      Path next start before (rest.head?.or stop) ∧
        Path next (pathEnd start before) rest stop := by
  cases rest with
  | nil =>
      rw [List.append_nil]
      induction before generalizing start with
      | nil => simp [Path, pathEnd_nil]
      | cons head before inductionHypothesis =>
          simp only [Path, pathEnd_cons, inductionHypothesis, and_assoc]
  | cons addr rest =>
      rw [path_append_cons]
      induction before generalizing start with
      | nil => simp [Path, pathEnd_nil]
      | cons head before inductionHypothesis =>
          have shorter := @inductionHypothesis head
          simp only [Path, pathEnd_cons, and_assoc] at shorter ⊢
          rw [shorter]

theorem path_end (path : Path next start addrs stop) : next (pathEnd start addrs) = some stop := by
  rw [← List.append_nil addrs, path_append_iff] at path
  exact path.2

theorem Path.exists_link (path : Path next start addrs stop) : ∃ link, next start = some link := by
  cases addrs with
  | nil => exact ⟨_, path⟩
  | cons head rest => exact ⟨_, path.1⟩

/-- Only the links of the cells on the path matter. -/
theorem Path.congr (same : ∀ cell ∈ start :: addrs, after cell = next cell)
    (path : Path next start addrs stop) : Path after start addrs stop := by
  induction addrs generalizing start with
  | nil =>
      rw [Path, same start (by simp)]
      exact path
  | cons head rest inductionHypothesis =>
      refine ⟨(same start (by simp)).trans path.1, inductionHypothesis ?_ path.2⟩
      intro cell member
      exact same cell (List.mem_cons_of_mem _ member)

/-- Links that can be read stay as they are. -/
theorem Path.mono (same : ∀ cell link, next cell = some link → after cell = some link)
    (path : Path next start addrs stop) : Path after start addrs stop := by
  induction addrs generalizing start with
  | nil => exact same start stop path
  | cons head rest inductionHypothesis =>
      exact ⟨same start (some head) path.1, inductionHypothesis path.2⟩

/-- Giving the last cell of a path another link. -/
theorem Path.redirect {link : Option Addr} (path : Path next start addrs stop)
    (distinct : (start :: addrs).Nodup) (relinked : after (pathEnd start addrs) = some link)
    (others : ∀ cell ∈ start :: addrs, cell ≠ pathEnd start addrs → after cell = next cell) :
    Path after start addrs link := by
  induction addrs generalizing start with
  | nil => exact relinked
  | cons first addrs inductionHypothesis =>
      rw [pathEnd_cons] at relinked others
      rw [List.nodup_cons] at distinct
      have notEnd : start ≠ pathEnd first addrs := by
        intro same
        exact distinct.1 (same ▸ pathEnd_mem)
      refine ⟨(others start (by simp) notEnd).trans path.1, ?_⟩
      apply inductionHypothesis path.2 distinct.2 relinked
      intro cell member
      exact others cell (List.mem_cons_of_mem _ member)

/-- The end of the first part of a path is not on the second part. -/
theorem ne_pathEnd_of_mem (distinct : (start :: (before ++ rest)).Nodup) {cell : Addr}
    (member : cell ∈ rest) : cell ≠ pathEnd start before := by
  rintro rfl
  have split := List.nodup_append.mp (show (start :: before ++ rest).Nodup from distinct)
  exact split.2.2 _ pathEnd_mem _ member rfl

/-- Linking a new cell in behind the cell `pathEnd start before`. -/
theorem Path.insert (path : Path next start (before ++ rest) stop)
    (distinct : (start :: (before ++ rest)).Nodup) (fresh : addr ∉ start :: (before ++ rest))
    (linked : after addr = next (pathEnd start before))
    (relinked : after (pathEnd start before) = some (some addr))
    (others : ∀ cell, cell ≠ addr → cell ≠ pathEnd start before → after cell = next cell) :
    Path after start (before ++ addr :: rest) stop := by
  obtain ⟨head, tail⟩ := path_append_iff.mp path
  have notAddr : ∀ cell ∈ start :: (before ++ rest), cell ≠ addr := by
    rintro cell member rfl
    exact fresh member
  rw [path_append_cons]
  constructor
  · have distinctHead : (start :: before).Nodup :=
      (List.nodup_append.mp (show (start :: before ++ rest).Nodup from distinct)).1
    apply head.redirect distinctHead relinked
    intro cell member
    exact others cell (notAddr cell (List.mem_append_left rest member))
  · cases rest with
    | nil => exact linked.trans tail
    | cons first rest =>
        refine ⟨linked.trans tail.1, tail.2.congr ?_⟩
        intro cell member
        exact others cell (notAddr cell (by simp [member])) (ne_pathEnd_of_mem distinct member)

/-- Taking the cell behind `pathEnd start before` out. -/
theorem Path.remove (path : Path next start (before ++ addr :: rest) stop)
    (distinct : (start :: (before ++ addr :: rest)).Nodup)
    (relinked : after (pathEnd start before) = next addr)
    (others : ∀ cell, cell ≠ pathEnd start before → after cell = next cell) :
    Path after start (before ++ rest) stop := by
  obtain ⟨head, tail⟩ := path_append_cons.mp path
  have distinctHead : (start :: before).Nodup :=
    (List.nodup_append.mp (show (start :: before ++ addr :: rest).Nodup from distinct)).1
  have notEnd {cell : Addr} (member : cell ∈ addr :: rest) : after cell = next cell :=
    others cell (ne_pathEnd_of_mem distinct member)
  rw [path_append_iff]
  cases rest with
  | nil => exact ⟨head.redirect distinctHead (relinked.trans tail) fun cell _ => others cell, relinked.trans tail⟩
  | cons first rest =>
      have link := relinked.trans tail.1
      refine ⟨head.redirect distinctHead link fun cell _ => others cell, link, tail.2.congr ?_⟩
      intro cell member
      exact notEnd (List.mem_cons_of_mem _ member)

end SimpleBasicComponents.Semantics
