import Turbolib.Library.Transition
import Mathlib.Data.Int.Notation
import Mathlib.Data.Nat.Notation
import Mathlib.Logic.Function.Basic

/-!
# Parsing HTTP in one thread

The `HttpParser` and `HttpResponse` objects of one thread. `http_parser` takes plain
function pointers, so each setter of `HttpParser` keeps its `std::function` in a variable
of the thread, which all objects share.

The bundled parser is a parameter: it goes through a buffer and offers events, and for
each event it calls the function pointer of the settings it was given if that is set.

## Main definitions

* `HttpParserLibrary`, `Execution` — the bundled parser.
* `HttpThread` — the objects, the shared callbacks and the parses in progress.
* `HttpThread.step` — one step of the thread.
-/

namespace Turbolib

/-- The callbacks of `http_parser_settings` that `HttpParser` uses. -/
inductive CallbackKind where
  | messageBegin
  | messageComplete
  | url
  | headerField
  | headerValue
  | headersComplete
  | status
  | body
  deriving DecidableEq, Repr

/-- What `http_parser` hands to a callback. `headersComplete` gets the parser itself, of
which `HttpParser::Status` shows the method and the status code. -/
inductive HttpEvent where
  | messageBegin
  | messageComplete
  | url (data : List UInt8)
  | headerField (data : List UInt8)
  | headerValue (data : List UInt8)
  | headersComplete (method code : ℕ)
  | status (data : List UInt8)
  | body (data : List UInt8)
  deriving DecidableEq, Repr

def HttpEvent.kind : HttpEvent → CallbackKind
  | .messageBegin => .messageBegin
  | .messageComplete => .messageComplete
  | .url _ => .url
  | .headerField _ => .headerField
  | .headerValue _ => .headerValue
  | .headersComplete _ _ => .headersComplete
  | .status _ => .status
  | .body _ => .body

/-- A call of `http_parser_execute`: it offers events and goes on with what the callback
returned, or with nothing where the settings have no callback; at the end it leaves the
parser in a state and returns how much of the buffer it has parsed. -/
inductive Execution (σ : Type) where
  | done (state : σ) (parsedSize : ℕ)
  | offer (event : HttpEvent) (resume : Option ℤ → Execution σ)

/-- The bundled parser. -/
structure HttpParserLibrary where
  State : Type
  /-- after `http_parser_init` -/
  init : State
  execute : State → List UInt8 → Execution State
  /-- `http_errno_description(HTTP_PARSER_ERRNO(parser))` -/
  errorDescription : State → String

/-- An `HttpParser`: one of its own, or the member of an `HttpResponse`. -/
inductive ParserRef where
  | parser (p : ℕ)
  | response (r : ℕ)
  deriving DecidableEq, Repr

/-- A `std::function`: a function of the user, or a method of a response bound to it. -/
inductive Callback where
  | user (f : ℕ)
  | appendBody (r : ℕ)
  | setStatus (r : ℕ)
  deriving DecidableEq, Repr

/-- `HttpParser::Impl`. -/
structure HttpParserImpl (σ : Type) where
  parser : σ
  /-- which function pointers are set; what they point to depends on their kind only -/
  settings : CallbackKind → Bool
  lastError : String
  /-- the callback last registered on this object; the source does not keep it -/
  registered : CallbackKind → Option Callback

/-- `HttpResponse`, without its `_parser`. -/
structure HttpResponse where
  status : ℕ
  body : List UInt8
  deriving DecidableEq, Repr

/-- A parse in progress: `http_parser` is running, or waits for a callback to return. -/
inductive Parse (σ : Type) where
  | running (ref : ParserRef) (size : ℕ) (execution : Execution σ)
  | calling (ref : ParserRef) (size : ℕ) (resume : Option ℤ → Execution σ)

def Parse.ref {σ : Type} : Parse σ → ParserRef
  | .running ref _ _ | .calling ref _ _ => ref

/-- A callback that has been invoked: for which object, what its latest registration of
that kind was, and what was called. -/
structure Invocation where
  ref : ParserRef
  latest : Option Callback
  callback : Callback
  deriving DecidableEq, Repr

/-- The objects of a thread. -/
structure HttpThread (lib : HttpParserLibrary) where
  /-- `static thread_local ... wrapper` of each setter -/
  wrapper : CallbackKind → Option Callback
  impls : ParserRef → Option (HttpParserImpl lib.State)
  responses : ℕ → Option HttpResponse
  /-- the parses in progress, innermost first -/
  parses : List (Parse lib.State)
  /-- on which object each kind of callback was last registered; only for reasoning -/
  registrar : CallbackKind → Option ParserRef
  /-- the callbacks invoked so far; only for reasoning -/
  invoked : List Invocation
  /-- what each response was asked to parse; only for reasoning -/
  fed : ℕ → List (List UInt8)

namespace HttpThread

variable {lib : HttpParserLibrary}

def empty : HttpThread lib where
  wrapper _ := none
  impls _ := none
  responses _ := none
  parses := []
  registrar _ := none
  invoked := []
  fed _ := []

/-- Code outside `http_parser` runs: at top level, or in a callback. -/
def userRuns (s : HttpThread lib) : Bool :=
  match s.parses with
  | [] | .calling _ _ _ :: _ => true
  | .running _ _ _ :: _ => false

def setImpl (s : HttpThread lib) (ref : ParserRef) (impl : HttpParserImpl lib.State) :
    HttpThread lib :=
  { s with impls := Function.update s.impls ref (some impl) }

/-- `HttpParser::Impl::Impl`. -/
def newImpl : HttpParserImpl lib.State :=
  ⟨lib.init, fun _ => false, "", fun _ => none⟩

/-- The body all setters share: `wrapper = fun`, and set the function pointer. -/
def setOn (kind : CallbackKind) (s : HttpThread lib) (ref : ParserRef) (callback : Callback) :
    Option (HttpThread lib) := do
  let impl ← s.impls ref
  let impl := { impl with
    settings := Function.update impl.settings kind true
    registered := Function.update impl.registered kind (some callback) }
  return { s.setImpl ref impl with
    wrapper := Function.update s.wrapper kind (some callback)
    registrar := Function.update s.registrar kind (some ref) }

def setOnMessageBegin := @setOn lib .messageBegin
def setOnMessageComplete := @setOn lib .messageComplete
def setOnUrl := @setOn lib .url
def setOnHeaderField := @setOn lib .headerField
def setOnHeaderValue := @setOn lib .headerValue
def setOnHeadersComplete := @setOn lib .headersComplete
def setOnStatus := @setOn lib .status
def setOnBody := @setOn lib .body

/-- The setter of a kind. -/
def setter : CallbackKind → HttpThread lib → ParserRef → Callback → Option (HttpThread lib)
  | .messageBegin => setOnMessageBegin
  | .messageComplete => setOnMessageComplete
  | .url => setOnUrl
  | .headerField => setOnHeaderField
  | .headerValue => setOnHeaderValue
  | .headersComplete => setOnHeadersComplete
  | .status => setOnStatus
  | .body => setOnBody

theorem setter_eq (kind : CallbackKind) : @setter lib kind = setOn kind := by
  cases kind <;> rfl

/-- `HttpParser::HttpParser`. -/
def newParser (s : HttpThread lib) (p : ℕ) : Option (HttpThread lib) :=
  if (s.impls (.parser p)).isSome then none else some (s.setImpl (.parser p) newImpl)

/-- `HttpResponse::HttpResponse`. -/
def newResponse (s : HttpThread lib) (r : ℕ) : Option (HttpThread lib) := do
  if (s.impls (.response r)).isSome then none
  else
    let s := { s.setImpl (.response r) newImpl with
      responses := Function.update s.responses r (some ⟨0, []⟩)
      fed := Function.update s.fed r [] }
    let s ← s.setOnBody (.response r) (.appendBody r)
    s.setOnHeadersComplete (.response r) (.setStatus r)

/-- The call of `http_parser_execute` in `parseBuffer`. An object does not parse while it
is parsing. -/
def parseBuffer (s : HttpThread lib) (ref : ParserRef) (buffer : List UInt8) :
    Option (HttpThread lib) := do
  let impl ← s.impls ref
  if ref ∈ s.parses.map Parse.ref then none
  else
    let parse := .running ref buffer.length (lib.execute impl.parser buffer)
    let fed := match ref with
      | .parser _ => s.fed
      | .response r => Function.update s.fed r (s.fed r ++ [buffer])
    return { s with parses := parse :: s.parses, fed }

/-- `HttpResponse::appendBody` and `HttpResponse::setStatus`, which both return 0. A
callback of another kind than the event does not exist. -/
def callMethod (s : HttpThread lib) (callback : Callback) (event : HttpEvent) :
    Option (HttpThread lib) :=
  match callback, event with
  | .appendBody r, .body data => do
    let response ← s.responses r
    let response := { response with body := response.body ++ data }
    return { s with responses := Function.update s.responses r (some response) }
  | .setStatus r, .headersComplete _ code => do
    let response ← s.responses r
    let response := { response with status := code }
    return { s with responses := Function.update s.responses r (some response) }
  | _, _ => none

/-- The rest of `parseBuffer`, once `http_parser_execute` has returned. -/
def finish (s : HttpThread lib) (ref : ParserRef) (size : ℕ) (state : lib.State)
    (parsedSize : ℕ) : Option (HttpThread lib) := do
  let impl ← s.impls ref
  let lastError := if parsedSize = size then impl.lastError else lib.errorDescription state
  return s.setImpl ref { impl with parser := state, lastError }

/-- `settings->on_...(parser)`: the lambda calls the shared `wrapper` of its kind. -/
def invoke (s : HttpThread lib) (ref : ParserRef) (size : ℕ) (event : HttpEvent)
    (resume : Option ℤ → Execution lib.State) (rest : List (Parse lib.State)) :
    Option (HttpThread lib) := do
  let impl ← s.impls ref
  let callback ← s.wrapper event.kind
  let invocation : Invocation := ⟨ref, impl.registered event.kind, callback⟩
  let s := { s with invoked := s.invoked ++ [invocation] }
  match callback with
  | .user _ => return { s with parses := .calling ref size resume :: rest }
  | _ => do
    let s ← s.callMethod callback event
    return { s with parses := .running ref size (resume (some 0)) :: rest }

/-- The next step of the innermost call of `http_parser_execute`. -/
def advance (s : HttpThread lib) : Option (HttpThread lib) :=
  match s.parses with
  | .running ref size (.done state parsedSize) :: rest =>
    { s with parses := rest }.finish ref size state parsedSize
  | .running ref size (.offer event resume) :: rest => do
    let impl ← s.impls ref
    if impl.settings event.kind then s.invoke ref size event resume rest
    else return { s with parses := .running ref size (resume none) :: rest }
  | _ => none

/-- The innermost callback returns. -/
def answer (s : HttpThread lib) (result : ℤ) : Option (HttpThread lib) :=
  match s.parses with
  | .calling ref size resume :: rest =>
    some { s with parses := .running ref size (resume (some result)) :: rest }
  | _ => none

inductive Action where
  | newParser (p : ℕ)
  | newResponse (r : ℕ)
  | register (p : ℕ) (kind : CallbackKind) (f : ℕ)
  | parseBuffer (ref : ParserRef) (buffer : List UInt8)
  | advance
  | answer (result : ℤ)

/-- One step. Objects are made, set up and told to parse by code outside `http_parser`. -/
def step (s : HttpThread lib) : Action → Option (HttpThread lib)
  | .newParser p => if s.userRuns then s.newParser p else none
  | .newResponse r => if s.userRuns then s.newResponse r else none
  | .register p kind f => if s.userRuns then setter kind s (.parser p) (.user f) else none
  | .parseBuffer ref buffer => if s.userRuns then s.parseBuffer ref buffer else none
  | .advance => s.advance
  | .answer result => s.answer result

end HttpThread

end Turbolib
