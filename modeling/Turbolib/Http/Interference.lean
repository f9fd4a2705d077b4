import Turbolib.Http.Parser

/-!
# Parsers of one thread keep apart

An `HttpParser` calls the callback that was last registered in the thread, on whichever
object. Objects keep apart as long as each callback that is called was last registered on
the object that is parsing.

## Main definitions

* `soloParse` — what a response parses with no other object around.
* `HttpThread.Own` — the condition on the callbacks called.
* `HttpThread.Separate` — the invariant under that condition.
-/

namespace Turbolib

/-- The rest of a parse with the two callbacks of a response and no others. -/
def soloRun {σ : Type} : Execution σ → HttpResponse → σ × HttpResponse
  | .done state _, response => (state, response)
  | .offer (.body data) resume, response =>
    soloRun (resume (some 0)) { response with body := response.body ++ data }
  | .offer (.headersComplete _ code) resume, response =>
    soloRun (resume (some 0)) { response with status := code }
  | .offer _ resume, response => soloRun (resume none) response

/-- A response that is fed some buffers, with no other object around. -/
def soloParse (lib : HttpParserLibrary) (buffers : List (List UInt8)) :
    lib.State × HttpResponse :=
  buffers.foldl (fun (state, response) buffer => soloRun (lib.execute state buffer) response)
    (lib.init, ⟨0, []⟩)

theorem soloParse_append (lib : HttpParserLibrary) (buffers : List (List UInt8))
    (buffer : List UInt8) :
    soloParse lib (buffers ++ [buffer]) =
      soloRun (lib.execute (soloParse lib buffers).1 buffer) (soloParse lib buffers).2 := by
  simp [soloParse]

/-- What a table holds after an entry has been put into it. -/
theorem update_eq_some_iff {α β : Type*} [DecidableEq α] {f : α → Option β} {a b : α} {x y : β} :
    Function.update f a (some x) b = some y ↔ (b = a ∧ x = y) ∨ (b ≠ a ∧ f b = some y) := by
  by_cases hb : b = a <;> simp [hb]

namespace HttpThread

variable {lib : HttpParserLibrary} {s s' : HttpThread lib}

/-- The parser of a response once its constructor has run. -/
def responseImpl (r : ℕ) : HttpParserImpl lib.State where
  parser := lib.init
  settings kind := kind = .body ∨ kind = .headersComplete
  lastError := ""
  registered
    | .body => some (.appendBody r)
    | .headersComplete => some (.setStatus r)
    | _ => none

theorem responseImpl_eq (r : ℕ) : (responseImpl r : HttpParserImpl lib.State) =
    let impl : HttpParserImpl lib.State := newImpl
    { impl with
      settings := Function.update (Function.update impl.settings .body true) .headersComplete true
      registered := Function.update (Function.update impl.registered .body (some (.appendBody r)))
        .headersComplete (some (.setStatus r)) } := by
  simp only [responseImpl, newImpl, HttpParserImpl.mk.injEq, true_and]
  constructor <;> funext kind <;> cases kind <;> rfl

/-- The object and the kind of the callback that `http_parser` is about to call. -/
def called (s : HttpThread lib) : Option (ParserRef × CallbackKind) :=
  match s.parses with
  | .running ref _ (.offer event _) :: _ =>
    if (s.impls ref).any (·.settings event.kind) then some (ref, event.kind) else none
  | _ => none

/-- A callback is called where the thread's last registration of its kind was on the
object that is parsing. -/
def Own (s : HttpThread lib) : Action → Prop
  | .advance => ∀ call ∈ s.called, s.registrar call.2 = some call.1
  | _ => True

instance decidableOwn (s : HttpThread lib) (a : Action) : Decidable (Own s a) :=
  match a with
  | .advance => inferInstanceAs (Decidable (∀ call ∈ s.called, s.registrar call.2 = some call.1))
  | .newParser _ | .newResponse _ | .register _ _ _ | .parseBuffer _ _ | .answer _ => isTrue trivial

/-! ## What one step does -/

theorem setOn_eq_some {kind : CallbackKind} {ref : ParserRef} {callback : Callback}
    (h : setOn kind s ref callback = some s') :
    ∃ impl, s.impls ref = some impl ∧
      s' = { s.setImpl ref { impl with
          settings := Function.update impl.settings kind true
          registered := Function.update impl.registered kind (some callback) } with
        wrapper := Function.update s.wrapper kind (some callback)
        registrar := Function.update s.registrar kind (some ref) } := by
  obtain ⟨impl, himpl, hs'⟩ := Option.bind_eq_some_iff.mp h
  exact ⟨impl, himpl, (Option.some.inj hs').symm⟩

/-- A new response: its parser with both callbacks registered, and nothing parsed. -/
theorem newResponse_eq_some {r : ℕ} (h : s.newResponse r = some s') :
    s.impls (.response r) = none ∧
      s' = { s with
        wrapper := Function.update (Function.update s.wrapper .body (some (.appendBody r)))
          .headersComplete (some (.setStatus r))
        impls := Function.update s.impls (.response r) (some (responseImpl r))
        responses := Function.update s.responses r (some ⟨0, []⟩)
        registrar := Function.update (Function.update s.registrar .body (some (.response r)))
          .headersComplete (some (.response r))
        fed := Function.update s.fed r [] } := by
  unfold newResponse at h
  split_ifs at h with hnew
  obtain ⟨s₁, hbody, hstatus⟩ := Option.bind_eq_some_iff.mp h
  obtain ⟨impl₁, himpl₁, rfl⟩ := setOn_eq_some hbody
  obtain ⟨impl₂, himpl₂, rfl⟩ := setOn_eq_some hstatus
  have h₁ : newImpl = impl₁ := by simpa [setImpl] using himpl₁
  subst h₁
  simp only [setImpl, Function.update_self, Option.some.injEq] at himpl₂
  subst himpl₂
  refine ⟨by simpa using hnew, ?_⟩
  simp [setImpl, responseImpl_eq]

/-- One case for each step of `http_parser_execute`. -/
inductive Advanced (s : HttpThread lib) : HttpThread lib → Prop
  | done {ref : ParserRef} {size n : ℕ} {state : lib.State} {rest : List (Parse lib.State)}
      {impl : HttpParserImpl lib.State}
      (hparses : s.parses = .running ref size (.done state n) :: rest)
      (himpl : s.impls ref = some impl) (lastError : String) :
      Advanced s ({ s with parses := rest }.setImpl ref { impl with parser := state, lastError })
  | skip {ref : ParserRef} {size : ℕ} {event : HttpEvent} {resume : Option ℤ → Execution lib.State}
      {rest : List (Parse lib.State)} {impl : HttpParserImpl lib.State}
      (hparses : s.parses = .running ref size (.offer event resume) :: rest)
      (himpl : s.impls ref = some impl) (hset : impl.settings event.kind = false) :
      Advanced s { s with parses := .running ref size (resume none) :: rest }
  | user {ref : ParserRef} {size f : ℕ} {event : HttpEvent}
      {resume : Option ℤ → Execution lib.State} {rest : List (Parse lib.State)}
      {impl : HttpParserImpl lib.State}
      (hparses : s.parses = .running ref size (.offer event resume) :: rest)
      (himpl : s.impls ref = some impl) (hset : impl.settings event.kind = true)
      (hwrapper : s.wrapper event.kind = some (.user f)) :
      Advanced s { s with
        parses := .calling ref size resume :: rest
        invoked := s.invoked ++ [⟨ref, impl.registered event.kind, .user f⟩] }
  | body {ref : ParserRef} {size r : ℕ} {data : List UInt8}
      {resume : Option ℤ → Execution lib.State} {rest : List (Parse lib.State)}
      {impl : HttpParserImpl lib.State} {response : HttpResponse}
      (hparses : s.parses = .running ref size (.offer (.body data) resume) :: rest)
      (himpl : s.impls ref = some impl) (hset : impl.settings .body = true)
      (hwrapper : s.wrapper .body = some (.appendBody r))
      (hresponse : s.responses r = some response) :
      Advanced s { s with
        parses := .running ref size (resume (some 0)) :: rest
        responses := Function.update s.responses r
          (some { response with body := response.body ++ data })
        invoked := s.invoked ++ [⟨ref, impl.registered .body, .appendBody r⟩] }
  | status {ref : ParserRef} {size r method code : ℕ}
      {resume : Option ℤ → Execution lib.State} {rest : List (Parse lib.State)}
      {impl : HttpParserImpl lib.State} {response : HttpResponse}
      (hparses : s.parses =
        .running ref size (.offer (.headersComplete method code) resume) :: rest)
      (himpl : s.impls ref = some impl) (hset : impl.settings .headersComplete = true)
      (hwrapper : s.wrapper .headersComplete = some (.setStatus r))
      (hresponse : s.responses r = some response) :
      Advanced s { s with
        parses := .running ref size (resume (some 0)) :: rest
        responses := Function.update s.responses r (some { response with status := code })
        invoked := s.invoked ++ [⟨ref, impl.registered .headersComplete, .setStatus r⟩] }

theorem invoke_cases {ref : ParserRef} {size : ℕ} {event : HttpEvent}
    {resume : Option ℤ → Execution lib.State} {rest : List (Parse lib.State)}
    {impl : HttpParserImpl lib.State}
    (hparses : s.parses = .running ref size (.offer event resume) :: rest)
    (himpl : s.impls ref = some impl) (hset : impl.settings event.kind = true)
    (h : s.invoke ref size event resume rest = some s') : Advanced s s' := by
  simp only [invoke, himpl, Option.bind_eq_bind, Option.bind_some, Option.bind_eq_some_iff] at h
  obtain ⟨callback, hwrapper, h⟩ := h
  cases callback with
  | user f => exact Option.some.inj h ▸ .user hparses himpl hset hwrapper
  | appendBody r =>
    cases event with
    | body data =>
      simp only [callMethod, Option.bind_eq_bind, Option.bind_eq_some_iff] at h
      obtain ⟨_, ⟨response, hresponse, hs⟩, hs'⟩ := h
      obtain rfl := Option.some.inj hs
      exact Option.some.inj hs' ▸ .body hparses himpl hset hwrapper hresponse
    | _ => simp [callMethod] at h
  | setStatus r =>
    cases event with
    | headersComplete method code =>
      simp only [callMethod, Option.bind_eq_bind, Option.bind_eq_some_iff] at h
      obtain ⟨_, ⟨response, hresponse, hs⟩, hs'⟩ := h
      obtain rfl := Option.some.inj hs
      exact Option.some.inj hs' ▸ .status hparses himpl hset hwrapper hresponse
    | _ => simp [callMethod] at h

theorem advance_cases (h : s.advance = some s') : Advanced s s' := by
  unfold advance at h
  cases hparses : s.parses with
  | nil => simp [hparses] at h
  | cons parse rest =>
    cases parse with
    | calling => simp [hparses] at h
    | running ref size execution =>
      cases execution with
      | done state n =>
        simp only [hparses, finish, Option.bind_eq_bind, Option.bind_eq_some_iff] at h
        obtain ⟨impl, himpl, h⟩ := h
        exact Option.some.inj h ▸ .done hparses himpl _
      | offer event resume =>
        simp only [hparses, Option.bind_eq_bind, Option.bind_eq_some_iff] at h
        obtain ⟨impl, himpl, h⟩ := h
        split_ifs at h with hset
        · exact invoke_cases hparses himpl hset h
        · exact Option.some.inj h ▸ .skip hparses himpl (by simpa using hset)

/-! ## The invariant -/

/-- The objects of a thread keep apart. -/
structure Separate (s : HttpThread lib) : Prop where
  /-- objects that parse exist, and each parses once at a time -/
  live : ∀ parse ∈ s.parses, (s.impls parse.ref).isSome
  nodup : (s.parses.map Parse.ref).Nodup
  /-- the methods of a response do not wait for anything -/
  calling : ∀ ref size resume, .calling ref size resume ∈ s.parses → ∃ p, ref = .parser p
  registrarLive : ∀ kind ref, s.registrar kind = some ref → (s.impls ref).isSome
  /-- the shared callback is that of the object it was last registered on -/
  wrapper : ∀ kind ref impl, s.registrar kind = some ref → s.impls ref = some impl →
    s.wrapper kind = impl.registered kind
  parserCallbacks : ∀ p impl kind callback, s.impls (.parser p) = some impl →
    impl.registered kind = some callback → ∃ f, callback = .user f
  responseCallbacks : ∀ r impl, s.impls (.response r) = some impl →
    impl.settings = (responseImpl r : HttpParserImpl lib.State).settings ∧
      impl.registered = (responseImpl r : HttpParserImpl lib.State).registered
  responseLive : ∀ r response, s.responses r = some response → (s.impls (.response r)).isSome
  invoked : ∀ i ∈ s.invoked, i.latest = some i.callback
  /-- a response that does not parse is as it would be alone -/
  idle : ∀ r impl, s.impls (.response r) = some impl → .response r ∉ s.parses.map Parse.ref →
    ∃ response, s.responses r = some response ∧ (impl.parser, response) = soloParse lib (s.fed r)
  /-- a response that parses is on its way there -/
  busy : ∀ r size execution, .running (.response r) size execution ∈ s.parses →
    ∃ response, s.responses r = some response ∧
      soloRun execution response = soloParse lib (s.fed r)

theorem empty_separate : (empty : HttpThread lib).Separate := by
  constructor <;> simp [empty]

theorem Separate.newParser {p : ℕ} (hinv : s.Separate) (h : s.newParser p = some s') :
    s'.Separate := by
  unfold HttpThread.newParser at h
  split_ifs at h with hnew
  obtain rfl := Option.some.inj h
  obtain ⟨live, nodup, calling, registrarLive, wrapper, parserCallbacks, responseCallbacks,
    responseLive, invoked, idle, busy⟩ := hinv
  simp only [setImpl]
  constructor <;> grind [newImpl, Function.update_apply]

/-- A registration makes the shared callback that of its object. -/
theorem Separate.wrapper_setOn {ref : ParserRef} {impl : HttpParserImpl lib.State}
    (hinv : s.Separate) (kind : CallbackKind) (himpl : s.impls ref = some impl)
    (callback : Callback) (kind' : CallbackKind) (ref' : ParserRef)
    (impl' : HttpParserImpl lib.State)
    (hregistrar : Function.update s.registrar kind (some ref) kind' = some ref')
    (himpl' : Function.update s.impls ref (some { impl with
      settings := Function.update impl.settings kind true
      registered := Function.update impl.registered kind (some callback) }) ref' = some impl') :
    Function.update s.wrapper kind (some callback) kind' = impl'.registered kind' := by
  have hold := hinv.wrapper kind'
  rw [update_eq_some_iff] at hregistrar himpl'
  obtain ⟨rfl, rfl⟩ | ⟨hkind, hregistrar⟩ := hregistrar
  · obtain ⟨-, rfl⟩ | ⟨href, -⟩ := himpl'
    · simp
    · exact absurd rfl href
  · obtain ⟨rfl, rfl⟩ | ⟨-, himpl'⟩ := himpl'
    · simpa [hkind] using hold _ impl hregistrar himpl
    · simpa [hkind] using hold _ impl' hregistrar himpl'

theorem Separate.register {p f : ℕ} {kind : CallbackKind} (hinv : s.Separate)
    (h : setOn kind s (.parser p) (.user f) = some s') : s'.Separate := by
  obtain ⟨impl, himpl, rfl⟩ := setOn_eq_some h
  have hwrapper := hinv.wrapper_setOn kind himpl (.user f)
  obtain ⟨live, nodup, calling, registrarLive, wrapper, parserCallbacks, responseCallbacks,
    responseLive, invoked, idle, busy⟩ := hinv
  simp only [setImpl]
  constructor
  case wrapper => exact hwrapper
  case parserCallbacks =>
    intro p' impl' kind' callback himpl' hcallback
    obtain ⟨-, rfl⟩ | ⟨-, himpl'⟩ := update_eq_some_iff.mp himpl'
    · obtain ⟨-, rfl⟩ | ⟨-, hcallback⟩ := update_eq_some_iff.mp hcallback
      · exact ⟨f, rfl⟩
      · exact parserCallbacks p impl kind' callback himpl hcallback
    · exact parserCallbacks p' impl' kind' callback himpl' hcallback
  all_goals grind [Function.update_apply]

theorem Separate.newResponse {r : ℕ} (hinv : s.Separate) (h : s.newResponse r = some s') :
    s'.Separate := by
  obtain ⟨hnew, rfl⟩ := newResponse_eq_some h
  obtain ⟨live, nodup, calling, registrarLive, wrapper, parserCallbacks, responseCallbacks,
    responseLive, invoked, idle, busy⟩ := hinv
  constructor
  case idle =>
    intro r' impl himpl hidle
    obtain ⟨heq, rfl⟩ | ⟨hne, himpl⟩ := update_eq_some_iff.mp himpl
    · obtain rfl := ParserRef.response.inj heq
      exact ⟨⟨0, []⟩, by simp, by simp [soloParse, responseImpl]⟩
    · have hr : r' ≠ r := fun heq => hne (heq ▸ rfl)
      simpa [hr] using idle r' impl himpl hidle
  case busy =>
    intro r' size execution hparse
    have hr : r' ≠ r := by
      rintro rfl
      have hlive := live _ hparse
      simp [Parse.ref, hnew] at hlive
    simpa [hr] using busy r' size execution hparse
  all_goals grind [responseImpl, Function.update_apply]

theorem Separate.parseBuffer {ref : ParserRef} {buffer : List UInt8} (hinv : s.Separate)
    (h : s.parseBuffer ref buffer = some s') : s'.Separate := by
  obtain ⟨impl, himpl, h⟩ := Option.bind_eq_some_iff.mp h
  split_ifs at h with hparses
  obtain ⟨live, nodup, calling, registrarLive, wrapper, parserCallbacks, responseCallbacks,
    responseLive, invoked, idle, busy⟩ := hinv
  cases ref with
  | parser p =>
    obtain rfl := Option.some.inj h
    constructor <;> grind [Parse.ref]
  | response r =>
    obtain rfl := Option.some.inj h
    constructor
    case idle =>
      intro r' impl' himpl' hidle
      simp only [List.map_cons, List.mem_cons, Parse.ref, ParserRef.response.injEq, not_or] at hidle
      simpa [hidle.1] using idle r' impl' himpl' hidle.2
    case busy =>
      intro r' size execution hparse
      obtain hfirst | hrest := List.mem_cons.mp hparse
      · obtain ⟨heq, -, rfl⟩ := Parse.running.inj hfirst
        obtain rfl := ParserRef.response.inj heq
        obtain ⟨response, hresponse, hsolo⟩ := idle r' impl himpl hparses
        refine ⟨response, hresponse, ?_⟩
        simp only [Function.update_self, soloParse_append, ← hsolo]
      · have hr : r' ≠ r := by
          rintro rfl
          exact hparses (List.mem_map.mpr ⟨_, hrest, rfl⟩)
        simpa [hr] using busy r' size execution hrest
    all_goals grind [Parse.ref]

theorem Separate.answer {result : ℤ} (hinv : s.Separate) (h : s.answer result = some s') :
    s'.Separate := by
  unfold HttpThread.answer at h
  cases hparses : s.parses with
  | nil => simp [hparses] at h
  | cons parse rest =>
    cases parse with
    | running => simp [hparses] at h
    | calling ref size resume =>
      simp only [hparses, Option.some.injEq] at h
      subst h
      obtain ⟨live, nodup, calling, registrarLive, wrapper, parserCallbacks, responseCallbacks,
        responseLive, invoked, idle, busy⟩ := hinv
      obtain ⟨p, rfl⟩ := calling ref size resume (by simp [hparses])
      constructor <;> grind [Parse.ref]

/-- The callback called under the condition is the one last registered on its object. -/
theorem Separate.own_callback {ref : ParserRef} {size : ℕ} {event : HttpEvent}
    {resume : Option ℤ → Execution lib.State} {rest : List (Parse lib.State)}
    {impl : HttpParserImpl lib.State} (hinv : s.Separate) (hown : s.Own .advance)
    (hparses : s.parses = .running ref size (.offer event resume) :: rest)
    (himpl : s.impls ref = some impl) (hset : impl.settings event.kind = true) :
    s.wrapper event.kind = impl.registered event.kind := by
  have hcalled : s.called = some (ref, event.kind) := by simp [called, hparses, himpl, hset]
  exact hinv.wrapper event.kind ref impl (hown _ hcalled) himpl

/-- A method of a response is called by the parser of that response. -/
theorem Separate.method_ref {ref : ParserRef} {r : ℕ} {impl : HttpParserImpl lib.State}
    {kind : CallbackKind} {callback : Callback} (hinv : s.Separate)
    (himpl : s.impls ref = some impl) (hcallback : impl.registered kind = some callback)
    (hmethod : callback = .appendBody r ∨ callback = .setStatus r) : ref = .response r := by
  cases ref with
  | parser p =>
    obtain ⟨f, hf⟩ := hinv.parserCallbacks p impl kind callback himpl hcallback
    obtain rfl | rfl := hmethod <;> cases hf
  | response r' =>
    rw [(hinv.responseCallbacks r' impl himpl).2] at hcallback
    cases kind <;> simp [responseImpl] at hcallback <;> grind

theorem Separate.advanceDone {ref : ParserRef} {size n : ℕ} {state : lib.State}
    {rest : List (Parse lib.State)} {impl : HttpParserImpl lib.State} (hinv : s.Separate)
    (hparses : s.parses = .running ref size (.done state n) :: rest)
    (himpl : s.impls ref = some impl) (lastError : String) :
    ({ s with parses := rest }.setImpl ref { impl with parser := state, lastError }).Separate := by
  obtain ⟨live, nodup, calling, registrarLive, wrapper, parserCallbacks, responseCallbacks,
    responseLive, invoked, idle, busy⟩ := hinv
  rw [hparses, List.map_cons, List.nodup_cons] at nodup
  simp only [setImpl]
  constructor
  case idle =>
    intro r impl' himpl' hidle
    obtain ⟨rfl, rfl⟩ | ⟨hne, himpl'⟩ := update_eq_some_iff.mp himpl'
    · obtain ⟨response, hresponse, hsolo⟩ := busy r size (.done state n) (by simp [hparses])
      exact ⟨response, hresponse, hsolo⟩
    · refine idle r impl' himpl' ?_
      simpa [hparses, Parse.ref, hne] using hidle
  case wrapper =>
    intro kind ref' impl' hregistrar himpl'
    obtain ⟨rfl, rfl⟩ | ⟨hne, himpl'⟩ := update_eq_some_iff.mp himpl'
    · exact wrapper kind ref' impl hregistrar himpl
    · exact wrapper kind ref' impl' hregistrar himpl'
  case parserCallbacks =>
    intro p impl' kind callback himpl' hcallback
    obtain ⟨rfl, rfl⟩ | ⟨hne, himpl'⟩ := update_eq_some_iff.mp himpl'
    · exact parserCallbacks p impl kind callback himpl hcallback
    · exact parserCallbacks p impl' kind callback himpl' hcallback
  case responseCallbacks =>
    intro r impl' himpl'
    obtain ⟨rfl, rfl⟩ | ⟨hne, himpl'⟩ := update_eq_some_iff.mp himpl'
    · exact responseCallbacks r impl himpl
    · exact responseCallbacks r impl' himpl'
  case nodup => exact nodup.2
  all_goals grind [Function.update_apply]

/-- The parse of a response goes on with what its own method returned. -/
theorem Separate.advanceMethod {r size : ℕ} {event : HttpEvent}
    {resume : Option ℤ → Execution lib.State} {rest : List (Parse lib.State)}
    {response response' : HttpResponse} {invocation : Invocation} (hinv : s.Separate)
    (hparses : s.parses = .running (.response r) size (.offer event resume) :: rest)
    (hresponse : s.responses r = some response)
    (hinvocation : invocation.latest = some invocation.callback)
    (hsolo : soloRun (.offer event resume) response = soloRun (resume (some 0)) response') :
    Separate { s with
      parses := .running (.response r) size (resume (some 0)) :: rest
      responses := Function.update s.responses r (some response')
      invoked := s.invoked ++ [invocation] } := by
  obtain ⟨live, nodup, calling, registrarLive, wrapper, parserCallbacks, responseCallbacks,
    responseLive, invoked, idle, busy⟩ := hinv
  constructor
  case idle =>
    intro r' impl himpl hidle
    simp only [List.map_cons, List.mem_cons, Parse.ref, ParserRef.response.injEq, not_or] at hidle
    have hidle' : .response r' ∉ s.parses.map Parse.ref := by
      simpa [hparses, Parse.ref, hidle.1] using hidle.2
    simpa [hidle.1] using idle r' impl himpl hidle'
  case busy =>
    intro r' size' execution hparse
    obtain hfirst | hrest := List.mem_cons.mp hparse
    · obtain ⟨heq, -, rfl⟩ := Parse.running.inj hfirst
      obtain rfl := ParserRef.response.inj heq
      obtain ⟨old, hold, hbusy⟩ := busy r' size (.offer event resume) (by simp [hparses])
      obtain rfl : response = old := Option.some.inj (hresponse.symm.trans hold)
      exact ⟨response', by simp, hsolo.symm.trans hbusy⟩
    · have hr : r' ≠ r := by
        rintro rfl
        rw [hparses, List.map_cons, List.nodup_cons] at nodup
        exact nodup.1 (List.mem_map.mpr ⟨_, hrest, rfl⟩)
      simpa [hr] using busy r' size' execution (by simp [hparses, hrest])
  all_goals grind [Parse.ref]

theorem soloRun_skip {σ : Type} {event : HttpEvent} {resume : Option ℤ → Execution σ}
    {response : HttpResponse} (hbody : event.kind ≠ .body)
    (hstatus : event.kind ≠ .headersComplete) :
    soloRun (.offer event resume) response = soloRun (resume none) response := by
  cases event <;> first | exact absurd rfl hbody | exact absurd rfl hstatus | rfl

theorem Separate.advance (hinv : s.Separate) (hown : s.Own .advance)
    (h : s.advance = some s') : s'.Separate := by
  cases advance_cases h with
  | done hparses himpl lastError => exact hinv.advanceDone hparses himpl lastError
  | @skip ref size event resume rest impl hparses himpl hset =>
    obtain ⟨live, nodup, calling, registrarLive, wrapper, parserCallbacks, responseCallbacks,
      responseLive, invoked, idle, busy⟩ := hinv
    constructor
    case busy =>
      intro r' size' execution hparse
      obtain hfirst | hrest := List.mem_cons.mp hparse
      · obtain ⟨rfl, -, rfl⟩ := Parse.running.inj hfirst
        obtain ⟨response, hresponse, hbusy⟩ :=
          busy r' size (.offer event resume) (by simp [hparses])
        rw [(responseCallbacks r' impl himpl).1] at hset
        simp only [responseImpl, decide_eq_false_iff_not, not_or] at hset
        rw [soloRun_skip hset.1 hset.2] at hbusy
        exact ⟨response, hresponse, hbusy⟩
      · exact busy r' size' execution (by simp [hparses, hrest])
    all_goals grind [Parse.ref]
  | @user ref size f event resume rest impl hparses himpl hset hwrapper =>
    have hlatest : impl.registered event.kind = some (.user f) :=
      (hinv.own_callback hown hparses himpl hset).symm.trans hwrapper
    obtain ⟨live, nodup, calling, registrarLive, wrapper, parserCallbacks, responseCallbacks,
      responseLive, invoked, idle, busy⟩ := hinv
    cases ref with
    | response r =>
      rw [(responseCallbacks r impl himpl).2] at hlatest
      cases hkind : event.kind <;> simp [hkind, responseImpl] at hlatest
    | parser p => constructor <;> grind [Parse.ref]
  | @body ref size r data resume rest impl response hparses himpl hset hwrapper hresponse =>
    have hlatest : impl.registered .body = some (.appendBody r) :=
      (hinv.own_callback hown hparses himpl hset).symm.trans hwrapper
    obtain rfl := hinv.method_ref himpl hlatest (Or.inl rfl)
    exact hinv.advanceMethod hparses hresponse hlatest rfl
  | @status ref size r method code resume rest impl response hparses himpl hset hwrapper
      hresponse =>
    have hlatest : impl.registered .headersComplete = some (.setStatus r) :=
      (hinv.own_callback hown hparses himpl hset).symm.trans hwrapper
    obtain rfl := hinv.method_ref himpl hlatest (Or.inr rfl)
    exact hinv.advanceMethod hparses hresponse hlatest rfl

theorem Separate.step {a : Action} (hinv : s.Separate) (hown : s.Own a)
    (h : HttpThread.step s a = some s') : s'.Separate := by
  cases a with
  | newParser p =>
    simp only [HttpThread.step] at h
    split_ifs at h
    exact hinv.newParser h
  | newResponse r =>
    simp only [HttpThread.step] at h
    split_ifs at h
    exact hinv.newResponse h
  | register p kind f =>
    simp only [HttpThread.step, setter_eq] at h
    split_ifs at h
    exact hinv.register h
  | parseBuffer ref buffer =>
    simp only [HttpThread.step] at h
    split_ifs at h
    exact hinv.parseBuffer h
  | advance => exact hinv.advance hown h
  | answer result => exact hinv.answer h

theorem own_separate (hrun : Reaches step Own empty s) : s.Separate :=
  hrun.invariant empty_separate fun _ _ _ hinv hown hstep => hinv.step hown hstep

/-- Status and body of a response, once the parses in progress have returned. -/
def result (s : HttpThread lib) (r : ℕ) : Option HttpResponse :=
  if .response r ∈ s.parses.map Parse.ref then none else s.responses r

theorem Separate.result_eq {r : ℕ} {response : HttpResponse} (hinv : s.Separate)
    (hresult : s.result r = some response) : response = (soloParse lib (s.fed r)).2 := by
  unfold result at hresult
  split_ifs at hresult with hparses
  obtain ⟨impl, himpl⟩ := Option.isSome_iff_exists.mp (hinv.responseLive r response hresult)
  obtain ⟨response', hresponse', hsolo⟩ := hinv.idle r impl himpl hparses
  obtain rfl : response = response' := Option.some.inj (hresult.symm.trans hresponse')
  rw [← hsolo]

/-- In a run in which each callback called was last registered on the object that parses,
every call went to the callback last registered on that object, and a response depends
only on what it was fed: it is as it would be with no other object around, and the same in
any two such runs that feed it the same. -/
theorem separate_of_own (lib : HttpParserLibrary) (s : HttpThread lib)
    (hrun : Reaches step Own empty s) :
    (∀ i ∈ s.invoked, i.latest = some i.callback) ∧
      (∀ r response, s.result r = some response → response = (soloParse lib (s.fed r)).2) ∧
      ∀ (s' : HttpThread lib) r response response', Reaches step Own empty s' → s.fed r = s'.fed r →
        s.result r = some response → s'.result r = some response' → response = response' := by
  have hinv := own_separate hrun
  refine ⟨hinv.invoked, fun r response => hinv.result_eq, ?_⟩
  intro s' r response response' hrun' hfed hresult hresult'
  calc response = (soloParse lib (s.fed r)).2 := hinv.result_eq hresult
    _ = (soloParse lib (s'.fed r)).2 := by rw [hfed]
    _ = response' := ((own_separate hrun').result_eq hresult').symm

/-! ## Two responses in one thread -/

/-- Offer some events in order; a callback that fails ends the parse. -/
def offerAll {σ : Type} (failed state : σ) (size : ℕ) : List HttpEvent → Execution σ
  | [] => .done state size
  | event :: events => .offer event fun result =>
    if result = none ∨ result = some 0 then offerAll failed state size events else .done failed 0

/-- `"HTTP/1.1 200 OK\r\nContent-Length: 2\r\n\r\nhi"`. -/
def okMessage : List UInt8 :=
  [72, 84, 84, 80, 47, 49, 46, 49, 32, 50, 48, 48, 32, 79, 75, 13, 10,
    67, 111, 110, 116, 101, 110, 116, 45, 76, 101, 110, 103, 116, 104, 58, 32, 50, 13, 10,
    13, 10, 104, 105]

/-- What `http_parser` does with that message. -/
def okLibrary : HttpParserLibrary where
  State := Bool
  init := true
  execute good buffer :=
    if good ∧ buffer = okMessage then
      offerAll false true okMessage.length
        [.messageBegin, .status [79, 75],
          .headerField [67, 111, 110, 116, 101, 110, 116, 45, 76, 101, 110, 103, 116, 104],
          .headerValue [50], .headersComplete 0 200, .body [104, 105], .messageComplete]
    else .done false 0
  errorDescription good := if good then "success" else "invalid HTTP method"

/-- A parser with a callback of its own, then a response that is made last. -/
theorem separate_of_own_one :
    ∃ s : HttpThread okLibrary, s.result 1 = some ⟨200, [104, 105]⟩ ∧
      ∀ i ∈ s.invoked, i.latest = some i.callback := by
  have hrun : ∃ s : HttpThread okLibrary, Reaches step Own empty s ∧
      s.result 1 = some ⟨200, [104, 105]⟩ :=
    exists_reaches
      ([.newParser 0, .register 0 .body 7, .newResponse 1, .parseBuffer (.response 1) okMessage] ++
        List.replicate 8 .advance)
      (by decide)
  obtain ⟨s, hrun, hs⟩ := hrun
  exact ⟨s, hs, (separate_of_own okLibrary s hrun).1⟩

/-- A response is given a message. With a second response made after it, the status and
the body of the message go to that one. -/
theorem response_interferes :
    ∃ s s' : HttpThread okLibrary, Reachable step empty s ∧ Reachable step empty s' ∧
      s.fed 1 = s'.fed 1 ∧ s.result 1 = some ⟨200, [104, 105]⟩ ∧ s'.result 1 = some ⟨0, []⟩ ∧
      s'.result 2 = some ⟨200, [104, 105]⟩ ∧ ∃ i ∈ s'.invoked, i.latest ≠ some i.callback := by
  have hone : ∃ s : HttpThread okLibrary, Reachable step empty s ∧
      s.fed 1 = [okMessage] ∧ s.result 1 = some ⟨200, [104, 105]⟩ :=
    exists_reaches
      ([.newResponse 1, .parseBuffer (.response 1) okMessage] ++ List.replicate 8 .advance)
      (by decide)
  have htwo : ∃ s : HttpThread okLibrary, Reachable step empty s ∧
      s.fed 1 = [okMessage] ∧ s.result 1 = some ⟨0, []⟩ ∧ s.result 2 = some ⟨200, [104, 105]⟩ ∧
      ∃ i ∈ s.invoked, i.latest ≠ some i.callback :=
    exists_reaches
      ([.newResponse 1, .newResponse 2, .parseBuffer (.response 1) okMessage] ++
        List.replicate 8 .advance)
      (by decide)
  obtain ⟨s, hrun, hfed, hresult⟩ := hone
  obtain ⟨s', hrun', hfed', hresult', hother, hinvoked⟩ := htwo
  exact ⟨s, s', hrun, hrun', hfed.trans hfed'.symm, hresult, hresult', hother, hinvoked⟩

end HttpThread

end Turbolib
