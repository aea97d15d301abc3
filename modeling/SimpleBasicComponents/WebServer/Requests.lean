import SimpleBasicComponents.WebServer.Responses

/-!
The request line, read.

Owns: lines without a line end in them, what `readline` finds of them, what
`http_request` makes of a request that begins with `GET /`, and which requests
`recv_cb` reads without leaving a buffer. The path is all that stands between the
slash and the first space, whatever else the line holds.
-/

namespace SimpleBasicComponents.WebServer

open SimpleBasicComponents.Semantics

def crlf : List UInt8 := [13, 10]

/-- No line end in it. A CR of its own is none. -/
def Unbroken (line : List UInt8) : Prop := ¬ crlf <:+: line

instance (line : List UInt8) : Decidable (Unbroken line) := by
  unfold Unbroken
  infer_instance

variable {ev : Ntyevent} {line path rest tail : List UInt8}

theorem unbroken_nil : Unbroken [] := by decide

theorem unbroken_cons_iff {char : UInt8} :
    Unbroken (char :: line) ↔ ¬ (char = 13 ∧ line.head? = some 10) ∧ Unbroken line := by
  have startsWith : crlf <+: char :: line ↔ char = 13 ∧ line.head? = some 10 := by
    unfold crlf
    rw [List.cons_prefix_cons, eq_comm]
    cases line with
    | nil => simp
    | cons next line => simp [List.cons_prefix_cons, eq_comm]
  unfold Unbroken
  rw [List.infix_cons_iff, not_or, startsWith]

/-- `readline` stops at the first line end and returns the index behind it. -/
theorem readlineLoop_line (unbroken : Unbroken line) (tail : List UInt8) (idx : Nat) :
    readlineLoop (line ++ crlf ++ tail) idx =
      (line, ((idx + line.length + 2 : Nat) : Int)) := by
  induction line generalizing idx with
  | nil => simp [readlineLoop, crlf]
  | cons char line inductionHypothesis =>
      obtain ⟨goesOn, unbrokenRest⟩ := unbroken_cons_iff.mp unbroken
      -- A CR at the end of the line has the CR of the line end behind it.
      have noEnd : ¬ (char = 13 && (line ++ crlf ++ tail).head? = some 10) = true := by
        cases line with
        | nil => simp [crlf]
        | cons next line => simpa using goesOn
      rw [List.cons_append, List.cons_append]
      unfold readlineLoop
      rw [if_neg noEnd, inductionHypothesis unbrokenRest]
      have counted : idx + 1 + line.length + 2 = idx + (char :: line).length + 2 := by
        rw [List.length_cons]
        omega
      rw [counted]

/-- The request line of a text is what stands before its first line end. -/
theorem requestLine_line (clean : 0 ∉ line ++ crlf ++ tail) (unbroken : Unbroken line) :
    requestLine (line ++ crlf ++ tail) = line := by
  unfold requestLine
  rw [takeWhile_clean clean, readlineLoop_line unbroken]

/-- The first line of the string in the bytes received. -/
def FirstLine (bytes line : List UInt8) : Prop :=
  Unbroken line ∧
    (bytes.takeWhile (· ≠ 0) = line ∨ ∃ tail, bytes.takeWhile (· ≠ 0) = line ++ crlf ++ tail)

/-- Without a line end `readline` takes everything. -/
theorem readlineLoop_unbroken (unbroken : Unbroken line) (idx : Nat) :
    readlineLoop line idx = (line, -1) := by
  induction line generalizing idx with
  | nil => rfl
  | cons char line inductionHypothesis =>
      obtain ⟨goesOn, unbrokenRest⟩ := unbroken_cons_iff.mp unbroken
      have noEnd : ¬ (char = 13 && line.head? = some 10) = true := by simpa using goesOn
      unfold readlineLoop
      rw [if_neg noEnd, inductionHypothesis unbrokenRest]

theorem readlineLoop_splits (chars : List UInt8) (idx : Nat) :
    Unbroken (readlineLoop chars idx).1 ∧
      (chars = (readlineLoop chars idx).1 ∨ ∃ tail, chars = (readlineLoop chars idx).1 ++ crlf ++ tail) := by
  induction chars generalizing idx with
  | nil => exact ⟨unbroken_nil, .inl rfl⟩
  | cons char rest inductionHypothesis =>
      unfold readlineLoop
      by_cases ends : (char = 13 && rest.head? = some 10) = true
      · rw [if_pos ends]
        rw [Bool.and_eq_true, decide_eq_true_eq, decide_eq_true_eq] at ends
        obtain ⟨tail, rfl⟩ := List.head?_eq_some_iff.mp ends.2
        rw [ends.1]
        exact ⟨unbroken_nil, .inr ⟨tail, rfl⟩⟩
      · rw [if_neg ends]
        obtain ⟨unbroken, splits⟩ := inductionHypothesis (idx + 1)
        generalize (readlineLoop rest (idx + 1)).1 = line at unbroken splits
        constructor
        · refine unbroken_cons_iff.mpr ⟨fun broken => ends ?_, unbroken⟩
          have next : rest.head? = some 10 := by
            rcases splits with rfl | ⟨tail, rfl⟩
            · exact broken.2
            · rw [List.append_assoc, List.head?_append, broken.2]
              rfl
          rw [Bool.and_eq_true, decide_eq_true_eq, decide_eq_true_eq]
          exact ⟨broken.1, next⟩
        · rcases splits with rfl | ⟨tail, rfl⟩
          · exact .inl rfl
          · exact .inr ⟨tail, rfl⟩

theorem requestLine_eq_iff {bytes : List UInt8} : requestLine bytes = line ↔ FirstLine bytes line := by
  unfold requestLine FirstLine
  constructor
  · rintro rfl
    exact readlineLoop_splits _ 0
  · rintro ⟨unbroken, whole | ⟨tail, whole⟩⟩
    · rw [whole, readlineLoop_unbroken unbroken]
    · rw [whole, readlineLoop_line unbroken]

/-- `GET /`, a path, a space and anything: a version, or nothing. -/
def getLine (path rest : List UInt8) : List UInt8 := ascii "GET /" ++ path ++ 32 :: rest

theorem drop_getLine (path rest : List UInt8) :
    (getLine path rest).drop sizeofGet = path ++ 32 :: rest := rfl

theorem hasGet_getLine (path rest : List UInt8) : HasGet (getLine path rest) :=
  ⟨[], [32, 47] ++ path ++ 32 :: rest, rfl⟩

theorem space_getLine (path rest : List UInt8) : 32 ∈ (getLine path rest).drop sizeofGet := by
  rw [drop_getLine]
  simp

theorem uri_getLine (noSpace : 32 ∉ path) (rest : List UInt8) : uri (getLine path rest) = path := by
  have plain : ∀ char ∈ path, decide (char ≠ 32) = true := by
    intro char member
    have differs : char ≠ 32 := fun same => noSpace (same ▸ member)
    simpa using differs
  unfold uri
  rw [drop_getLine, List.takeWhile_append_of_pos plain]
  simp

/-- A GET request is read to the letter: the resource is the path behind the root. -/
theorem httpRequest_get (holds : cstring ev.buffer = some (getLine path rest ++ crlf ++ tail))
    (noSpace : 32 ∉ path) (unbroken : Unbroken (getLine path rest))
    (fits : (getLine path rest).length ≤ 1023) :
    httpRequest ev = some { ev with
      method := httpMethodGet
      resource := ascii "./html/" ++ path } := by
  obtain ⟨clean, after, filled⟩ := terminated_of_cstring holds
  have isLine := requestLine_line clean unbroken
  have within : LineFits (getLine path rest) :=
    ⟨fits.trans (by decide), fun _ => hasGet_getLine path rest⟩
  rw [httpRequest_received filled, isLine, if_pos within, if_pos (hasGet_getLine path rest),
    if_pos (space_getLine path rest), uri_getLine noSpace]

def browserPath : List UInt8 := ascii "GET\r.html"
def browserRest : List UInt8 := ascii "HTTP/1.1"
def browserTail : List UInt8 := ascii "Host: POST\r\n\r\n"

/-- A path with a method's name and a CR in it. -/
theorem httpRequest_browser :
    cstring (filled {} (getLine browserPath browserRest ++ crlf ++ browserTail)).buffer =
        some (getLine browserPath browserRest ++ crlf ++ browserTail) ∧
      httpRequest (filled {} (getLine browserPath browserRest ++ crlf ++ browserTail)) =
        some { filled {} (getLine browserPath browserRest ++ crlf ++ browserTail) with
          method := httpMethodGet
          resource := ascii "./html/" ++ browserPath } := by
  have holds : cstring (filled {} (getLine browserPath browserRest ++ crlf ++ browserTail)).buffer =
      some (getLine browserPath browserRest ++ crlf ++ browserTail) := cstring_append (by decide)
  exact ⟨holds, httpRequest_get holds (by decide) (by decide) (by decide)⟩

/-- Such a request, received on any slot, has a response of its own, unless its
path names something that is neither a file nor a directory. -/
theorem getLine_answerable {files : FileSystem} (clean : 0 ∉ getLine path rest ++ crlf ++ tail)
    (received : (getLine path rest ++ crlf ++ tail).length < bufferLength)
    (noSpace : 32 ∉ path) (unbroken : Unbroken (getLine path rest))
    (fits : (getLine path rest).length ≤ 1023)
    (known : files.lookup (ascii "./html/" ++ path) ≠ some .other) :
    Answerable files (getLine path rest ++ crlf ++ tail) := by
  have isLine := requestLine_line clean unbroken
  have within : (getLine path rest).length ≤ linebufLength := fits.trans (by decide)
  have isUri := uri_getLine noSpace rest
  refine ⟨received, ?_, ?_, ?_, ?_⟩
  · rwa [isLine]
  · rw [isLine]
    exact hasGet_getLine path rest
  · rw [isLine]
    exact space_getLine path rest
  · rwa [isLine, isUri]

/-! ### Staying inside the buffers -/

/-- There is room for a zero byte behind what was received; the first line fits its buffer, and
fills it only if a GET is found in it; and a line with a GET has a space behind its fifth
character. -/
def KeepsInside (bytes : List UInt8) : Prop :=
  bytes.length < bufferLength ∧
    ∀ line, FirstLine bytes line → LineFits line ∧ (HasGet line → 32 ∈ line.drop sizeofGet)

/-- `recv_cb` leaves no buffer, and every loop ends inside one, for exactly these requests. -/
theorem recvCb_isSome_iff_keepsInside (slot : Slot) (bytes : List UInt8) (fails : Bool) :
    (recvCb slot bytes fails).isSome ↔ KeepsInside bytes := by
  have isFirst : ∀ line, FirstLine bytes line ↔ requestLine bytes = line := fun _ =>
    requestLine_eq_iff.symm
  unfold KeepsInside
  simp only [isFirst, forall_eq']
  by_cases received : bytes.length < bufferLength
  · rw [and_iff_right received]
    by_cases nonEmpty : bytes.length > 0
    · have reads : (recvCb slot bytes fails).isSome = (httpRequest (filled slot.ev bytes)).isSome := by
        unfold recvCb
        rw [if_pos nonEmpty, receive_eq received]
        simp only [Option.bind_eq_bind, Option.bind_some]
        rw [← filled]
        cases httpRequest (filled slot.ev bytes) <;> rfl
      rw [reads, httpRequest_received rfl]
      by_cases fits : LineFits (requestLine bytes)
      · rw [if_pos fits, and_iff_right fits]
        by_cases isGet : HasGet (requestLine bytes)
        · rw [if_pos isGet, imp_iff_right isGet]
          by_cases space : 32 ∈ (requestLine bytes).drop sizeofGet
          · rw [if_pos space]
            exact iff_of_true rfl space
          · rw [if_neg space]
            exact iff_of_false Bool.false_ne_true space
        · rw [if_neg isGet]
          exact iff_of_true rfl fun found => absurd found isGet
      · rw [if_neg fits]
        exact iff_of_false Bool.false_ne_true fun both => fits both.1
    · obtain rfl := List.eq_nil_of_length_eq_zero (Nat.eq_zero_of_not_pos nonEmpty)
      have emptyLine : requestLine [] = [] := rfl
      rw [emptyLine]
      exact iff_of_true rfl (by decide)
  · have nonEmpty : bytes.length > 0 := Nat.lt_of_lt_of_le (by decide) (Nat.le_of_not_lt received)
    unfold recvCb receive
    rw [if_pos nonEmpty, if_neg received]
    exact iff_of_false Bool.false_ne_true fun both => received both.1

/-- A GET and no space: the scan for one leaves the line buffer. -/
theorem bareGet_leaves : (recvCb {} (ascii "GET\r\n") false).isSome = false := by decide +kernel

end SimpleBasicComponents.WebServer
