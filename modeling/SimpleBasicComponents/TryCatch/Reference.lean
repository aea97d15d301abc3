import SimpleBasicComponents.TryCatch.Model

/-!
Structured exceptions: the meaning of programs written with the macros.

A program runs with or without a `Try` active around it. It shows what it does
and reports, and ends normally or with an exception for the innermost active
`Try`; an exception carries the site it was thrown at.
-/

namespace SimpleBasicComponents.TryCatch

/-- What a program shows. -/
inductive Shown where
  | action (name : Nat)
  | report (exception : NtyException) (cause : Option String) (site : Nat)
deriving DecidableEq, Repr

inductive Outcome where
  | done
  | raised (exception : NtyException) (site : Nat)
deriving DecidableEq, Repr

abbrev Behaviour := List Shown × Outcome

/-- An exception ends the program before its second part. -/
def Behaviour.andThen (first second : Behaviour) : Behaviour :=
  match first.2 with
  | .done => (first.1 ++ second.1, second.2)
  | .raised _ _ => first

/-- With no active `Try` an exception is only reported. -/
def raise (active : Bool) (exception : NtyException) (cause : Option String) (site : Nat) :
    Behaviour :=
  if active then ([], .raised exception site) else ([.report exception cause site], .done)

mutual

def Program.behaviour (active : Bool) : Program → Behaviour
  | .skip => ([], .done)
  | .action name => ([.action name], .done)
  | .throw exception cause site => raise active exception cause site
  | .seq first second => (first.behaviour active).andThen (second.behaviour active)
  | .tryBlock body handlers =>
      match body.behaviour true with
      | (shown, .done) =>
          Behaviour.andThen (shown, .done) (handlers.finalBehaviour active)
      | (shown, .raised exception site) =>
          Behaviour.andThen (shown, .done) (match handlers.catchBehaviour active exception with
            | some handled => handled.andThen (handlers.finalBehaviour active)
            | none =>
                (handlers.finalBehaviour active).andThen (raise active exception none site))

/-- The first `Catch` that names the exception. -/
def Handlers.catchBehaviour (active : Bool) (raised : NtyException) : Handlers → Option Behaviour
  | .endTry => none
  | .finallyEndTry _ => none
  | .catch exception handler rest =>
      if raised = exception then some (handler.behaviour active)
      else rest.catchBehaviour active raised

def Handlers.finalBehaviour (active : Bool) : Handlers → Behaviour
  | .endTry => ([], .done)
  | .finallyEndTry final => final.behaviour active
  | .catch _ _ rest => rest.finalBehaviour active

end

/-- The nested blocks of `main`, with a `Finally` that is skipped by a throw
from the handler. -/
example :
    (Program.tryBlock
      (.seq (.tryBlock (.throw 1 none 0) (.catch 1 (.action 10) (.finallyEndTry (.action 11))))
        (.tryBlock (.throw 2 none 1) (.catch 2 (.throw 3 none 2) (.finallyEndTry (.action 12)))))
      (.catch 3 (.action 13) .endTry)).behaviour false =
        ([.action 10, .action 11, .action 13], .done) := rfl

end SimpleBasicComponents.TryCatch
