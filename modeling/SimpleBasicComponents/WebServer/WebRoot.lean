import SimpleBasicComponents.Semantics.Paths
import SimpleBasicComponents.WebServer.Responses

/-!
Which paths a request can name.

Owns: paths resolved by their components, the paths that `http_response` and
`send_cb` open, and the exact condition under which a GET stays in the directory
that the macro `HTTP_WEBSERVER_HTML_ROOT` names. `http_request` puts the path of
the request behind that name as it is, with any `..` in it.
-/

namespace SimpleBasicComponents.WebServer

open SimpleBasicComponents.Semantics

/-- What a component of a path stands for. -/
def moveOf (component : List UInt8) : Move (List UInt8) :=
  if component = [] ∨ component = ascii "." then .stay
  else if component = ascii ".." then .up
  else .into component

/-- Slashes that follow one another have an empty component between them. -/
def movesOf (path : List UInt8) : List (Move (List UInt8)) := (path.splitOn 47).map moveOf

/-- The path names the directory `html` or something in it. -/
def InRoot (path : List UInt8) : Prop :=
  (walked (movesOf path)).ups = 0 ∧ [ascii "html"] <:+ (walked (movesOf path)).names

instance (path : List UInt8) : Decidable (InRoot path) := by
  unfold InRoot
  infer_instance

/-- The files that `http_response` and, for a 200, `send_cb` open. -/
def opened (ev : Ntyevent) (files : FileSystem) : List (List UInt8) :=
  if (httpResponse ev files).1.retCode = 200 then [ev.resource, ev.resource] else [ev.resource]

/-- The path of the request, which begins in `html`, never goes above it; or it
ends one level above, in another path through `html`. -/
def KeepsRoot (path : List UInt8) : Prop :=
  StaysBelow (movesOf path) ∨
    ((walked (movesOf path)).ups = 1 ∧ [ascii "html"] <:+ (walked (movesOf path)).names)

variable {ev next : Ntyevent} {bytes path : List UInt8}

theorem movesOf_resource (path : List UInt8) :
    movesOf (ascii "./html/" ++ path) = [.stay, .into (ascii "html")] ++ movesOf path := by
  have split : ascii "./html/" ++ path = ascii "./html" ++ 47 :: path := rfl
  unfold movesOf
  rw [split, List.splitOn_append_cons_self, List.map_append]
  rfl

theorem inRoot_resource_iff (path : List UInt8) :
    InRoot (ascii "./html/" ++ path) ↔ KeepsRoot path := by
  have isPlace : walked (movesOf (ascii "./html/" ++ path)) = walk ⟨0, [ascii "html"]⟩ (movesOf path) := by
    rw [movesOf_resource]
    exact walk_append _ _ _
  unfold InRoot KeepsRoot
  rw [isPlace, walk_inside, ← ups_eq_zero_iff]
  generalize walked (movesOf path) = place
  obtain ⟨ups, names⟩ := place
  simp only [List.length_singleton]
  cases ups with
  | zero =>
      rw [List.drop_zero]
      exact iff_of_true ⟨rfl, List.suffix_append _ _⟩ (.inl rfl)
  | succ more =>
      have used : [ascii "html"].drop (more + 1) = [] := List.drop_of_length_le (Nat.le_add_left 1 more)
      rw [used, List.append_nil]
      have notZero : more + 1 ≠ 0 := Nat.succ_ne_zero _
      rw [or_iff_right notZero]
      exact and_congr_left fun _ => by omega

/-- What a GET lets the server open is in the root exactly if its path keeps there. -/
theorem opened_inRoot_iff {rest : List UInt8} (filled : ev.buffer = bytes ++ 0 :: rest)
    (isGet : HasGet (requestLine bytes)) (requested : httpRequest ev = some next) :
    (InRoot next.resource ∧ ∀ files, ∀ path ∈ opened next files, InRoot path) ↔
      KeepsRoot (uri (requestLine bytes)) := by
  have isResource : next.resource = ascii "./html/" ++ uri (requestLine bytes) := by
    have reads := httpRequest_received filled
    rw [requested, if_pos isGet] at reads
    split at reads
    · split at reads
      · rw [Option.some.inj reads]
      · contradiction
    · contradiction
  rw [isResource, inRoot_resource_iff]
  constructor
  · exact fun both => both.1
  · intro keeps
    refine ⟨keeps, fun files path member => ?_⟩
    have same : path = next.resource := by
      unfold opened at member
      split at member <;> simpa using member
    rw [same, isResource]
    exact (inRoot_resource_iff _).mpr keeps

/-- A request for a file beside the web root. -/
def besideRoot : List UInt8 := ascii "GET /../passwd HTTP/1.1\r\n\r\n"

private theorem besideRoot_read :
    httpRequest (filled {} besideRoot) = some { filled {} besideRoot with
      method := httpMethodGet
      resource := ascii "./html/" ++ uri (requestLine besideRoot) } := by
  rw [httpRequest_received rfl, if_pos (by decide), if_pos (by decide), if_pos (by decide)]

theorem besideRoot_leaves :
    ∃ next, httpRequest (filled {} besideRoot) = some next ∧ ¬ InRoot next.resource :=
  ⟨_, besideRoot_read, by decide +kernel⟩

theorem besideRoot_not_keepsRoot : ¬ KeepsRoot (uri (requestLine besideRoot)) := by
  intro keeps
  have inRoot := ((opened_inRoot_iff rfl (by decide) besideRoot_read).mpr keeps).1
  exact absurd inRoot (by decide +kernel)

end SimpleBasicComponents.WebServer
