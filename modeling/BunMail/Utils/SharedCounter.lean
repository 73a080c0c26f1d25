import BunMail.Utils.WindowAgreement

/-!
# The counter over the shared backend

`sharedWindowCounter` answers from the shared backend, and from this process's memory without one or
when it fails.  A command that the backend did not answer in time may still be run, now or later.
The ids of a take name the store that counted it, and a refund goes there or nowhere.
-/

namespace BunMail.Utils.Windows

open Timed

/-! ## The calls -/

/-- The store that answered: a backend with its generation, or memory. -/
abbrev Source := Option (ℕ × ℕ)

/-- `s<generation>` or `l`. -/
def Source.name : Source → Text
  | some (_, generation) => 's' :: Text.decimal generation
  | none => ['l']

/-- `tagWindows`. -/
def tagWindows (windows : WindowIds) (tag : Text) : WindowIds := windows.mapValues fun _ id => tag ++ id

/-- A command on its way to a backend, for a call. -/
structure Command where
  backend : ℕ
  op : Op
  call : ℕ

/-- How far a call is. -/
inductive Progress where
  /-- The command is sent. -/
  | sent (backend generation : ℕ) (op : Op)
  /-- The backend has run it. -/
  | ran (backend generation : ℕ) (op : Op) (answer : Answer)
  | answered (source : Source) (answer : Answer)
  | skipped

/-- The process: its memory, the backends there are, the one installed, and the calls. -/
structure SharedWindowCounter where
  localCounter : MemoryWindowCounter
  backends : ℕ → RedisStore
  backend : Option ℕ
  backendGeneration : ℕ
  wire : List Command
  calls : List (Request × Progress)

/-- What happens next. -/
inductive Act where
  | useSharedBackend (next : Option ℕ)
  | call (request : Request)
  /-- The backend of the command runs it. -/
  | run (command : ℕ)
  /-- The answer of the backend arrives. -/
  | reply (call : ℕ)
  /-- The call fails: the backend is down, or the answer is late. -/
  | fail (call : ℕ)

/-- An act, at the clock's time. -/
structure Event where
  time : Time
  act : Act

namespace SharedWindowCounter

variable (s : SharedWindowCounter)

/-- The ids that the call was given, with the store that answered it. -/
def ids (call : ℕ) : Option (Source × WindowIds) :=
  s.calls[call]?.bind fun c =>
    match c.2 with
    | .answered source (.took d) => some (source, d.windows)
    | _ => none

/-- The window id a take returned for the key. -/
def windowId (call : ℕ) (key : Text) : Option Text :=
  (s.ids call).bind fun t => (tagWindows t.2 (Source.name t.1 ++ [':'])).get? key

/-- The call is answered from memory. -/
def answerLocally (now : Time) (request : Request) (op : Op) : SharedWindowCounter :=
  let answer := s.localCounter.call now op
  { s with localCounter := answer.2, calls := s.calls ++ [(request, .answered none answer.1)] }

/-- The command is sent to the backend. -/
def send (request : Request) (backend : ℕ) (op : Op) : SharedWindowCounter :=
  { s with
    wire := s.wire ++ [⟨backend, op, s.calls.length⟩]
    calls := s.calls ++ [(request, .sent backend s.backendGeneration op)] }

def skip (request : Request) : SharedWindowCounter := { s with calls := s.calls ++ [(request, .skipped)] }

/-- `take` and `run`: on the shared backend, or on memory without one. -/
def onBackend (now : Time) (request : Request) (op : Op) : SharedWindowCounter :=
  s.backend.elim (s.answerLocally now request op) fun backend => s.send request backend op

/-- What stands before and after the first colon. -/
def splitId (windowId : Text) : Text × Text :=
  if ':' ∈ windowId then
    (windowId.takeWhile (· ≠ ':'), (windowId.dropWhile (· ≠ ':')).drop 1)
  else (windowId.dropLast, windowId)

/-- `refund`. -/
def refund (now : Time) (request : Request) (key windowId : Text) : SharedWindowCounter :=
  let (store, id) := splitId windowId
  if store = ['l'] then s.answerLocally now request (.refund key id)
  else
    match s.backend with
    | none => s.skip request
    | some backend =>
      if store ≠ 's' :: Text.decimal s.backendGeneration then s.skip request
      else s.send request backend (.refund key id)

/-- A call begins; a refund needs an id that a take returned. -/
def begin (now : Time) : Request → SharedWindowCounter
  | .take keys options => s.onBackend now (.take keys options) (.take keys options)
  | .peek key => s.onBackend now (.peek key) (.peek key)
  | .delete keys => s.onBackend now (.delete keys) (.delete keys)
  | .markOnce key => s.onBackend now (.markOnce key) (.markOnce key)
  | .prune => s.answerLocally now .prune .prune
  | .refund call key =>
    (s.windowId call key).elim (s.skip (.refund call key)) (s.refund now (.refund call key) key)

/-- How far the call is from now on. -/
def setProgress (call : ℕ) (progress : Progress) : SharedWindowCounter :=
  { s with calls := s.calls.modify call fun c => (c.1, progress) }

/-- The backend has run the command; a call that has failed does not hear of it. -/
def ranCommand (c : Command) (answer : Answer) : Progress → SharedWindowCounter
  | .sent _ generation op => s.setProgress c.call (.ran c.backend generation op answer)
  | _ => s

/-- Memory answers a call that failed, but for a refund. -/
def fallBack (now : Time) (call : ℕ) : Op → SharedWindowCounter
  | .refund _ _ => s.setProgress call .skipped
  | op =>
    let answer := s.localCounter.call now op
    { s.setProgress call (.answered none answer.1) with localCounter := answer.2 }

/-- The answer arrives. -/
def replied (call : ℕ) : Progress → SharedWindowCounter
  | .ran backend generation _ answer =>
    s.setProgress call (.answered (some (backend, generation)) answer)
  | _ => s

/-- The call fails. -/
def failed (now : Time) (call : ℕ) : Progress → SharedWindowCounter
  | .sent _ _ op => s.fallBack now call op
  | .ran _ _ op _ => s.fallBack now call op
  | _ => s

/-- A command leaves the wire and is run. -/
def runCommand (uuid : ℕ → Text) (now : Time) (i : ℕ) (c : Command) : SharedWindowCounter :=
  let answer := (s.backends c.backend).call uuid now c.op
  let s' : SharedWindowCounter := { s with
    backends := Function.update s.backends c.backend answer.2
    wire := s.wire.eraseIdx i }
  s.calls[c.call]?.elim s' fun p => s'.ranCommand c answer.1 p.2

/-- One step of the process. -/
def step (uuid : ℕ → Text) (e : Event) : SharedWindowCounter :=
  match e.act with
  | .useSharedBackend next =>
    { s with backend := next, backendGeneration := s.backendGeneration + 1 }
  | .call request => s.begin e.time request
  | .run i => s.wire[i]?.elim s (s.runCommand uuid e.time i)
  | .reply call => s.calls[call]?.elim s fun c => s.replied call c.2
  | .fail call => s.calls[call]?.elim s fun c => s.failed e.time call c.2

end SharedWindowCounter

end BunMail.Utils.Windows
