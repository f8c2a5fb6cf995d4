import Bajiru.Json
import Bajiru.Runs
import Mathlib.Tactic.Common

/-!
# `VTubeStudioClient`

The state machine of `VTubeStudioClient::Impl`. An asynchronous operation is an entry of `ioc`; it completes in any
order and with any outcome while the `io_context` is polled, and its handler runs to its end. Timeouts are failures the
environment may choose, a received message is its parsed JSON (`none` if malformed), the stored token and the clock are
read from the environment.

A handler can leave by an exception or use a stream that is gone (`Ret`). The public calls and the completions are the
events of `Client.next`.
-/

namespace Bajiru.Linkjiru

namespace Vts

/-- `Impl::State`. -/
inductive State
  | disconnected
  | resolving
  | connecting
  | handshaking
  | authenticating
  | ready
  deriving DecidableEq

/-- `RECONNECT_BACKOFF_MS`. -/
def reconnectBackoffMs : Int := 5000

/-! ## Requests -/

def vtsApiName : String := "VTubeStudioPublicAPI"

def vtsApiVersion : String := "1.0"

def pluginName : String := "Linkjiru"

def developerName : String := "tomobaji"

def detectParamName : String := "LinkjiruDetectLowji"

/-- `makeEnvelope(messageType, data, requestID)`. -/
def makeEnvelope (messageType : String) (data : Json) (requestID : String) : Json :=
  .obj [("apiName", .str vtsApiName), ("apiVersion", .str vtsApiVersion), ("requestID", .str requestID),
    ("messageType", .str messageType), ("data", data)]

/-- The requests of the client; an authentication uses the stored token or the one just granted. -/
inductive Request
  | authenticationToken
  | authentication (token : String) (stored : Bool)
  | parameterCreation
  | injectParameterData (value : ℚ)
  deriving DecidableEq

namespace Request

def messageType : Request → String
  | authenticationToken => "AuthenticationTokenRequest"
  | authentication _ _ => "AuthenticationRequest"
  | parameterCreation => "ParameterCreationRequest"
  | injectParameterData _ => "InjectParameterDataRequest"

def requestID : Request → String
  | authenticationToken => "auth-token-req"
  | authentication _ stored => if stored then "auth-stored" else "auth-req"
  | parameterCreation => "param-create"
  | injectParameterData _ => "inject-param"

def data : Request → Json
  | authenticationToken => .obj [("pluginName", .str pluginName), ("pluginDeveloper", .str developerName)]
  | authentication token _ =>
    .obj [("pluginName", .str pluginName), ("pluginDeveloper", .str developerName), ("authenticationToken", .str token)]
  | parameterCreation =>
    .obj [("parameterName", .str detectParamName), ("explanation", .str "speaker: 0 = baji, 1 = ru"), ("min", .num 0),
      ("max", .num 1), ("defaultValue", .num 0)]
  | injectParameterData value =>
    .obj [("faceFound", .bool false), ("mode", .str "set"),
      ("parameterValues", .arr [.obj [("id", .str detectParamName), ("value", .num value)]])]

/-- The request as it is sent. -/
def json (r : Request) : Json := makeEnvelope r.messageType r.data r.requestID

end Request

/-! ## The state -/

/-- The response handler of a request of the auth phase. -/
inductive OnResp
  | onTokenResponse
  | onAuthResponse
  deriving DecidableEq

/-- An asynchronous operation with its handler. A write uses the payload of the given assignment of `writePayload`. -/
inductive OpKind
  | resolve
  | connect
  | handshake
  | requestWrite (request : Request) (onResp : OnResp) (payload : Nat)
  | responseRead (request : Request) (onResp : OnResp)
  | steadyRead
  | steadyWrite (request : Request) (payload : Nat)
  deriving DecidableEq

/-- An outstanding operation; streams are numbered by the attempt that made them. -/
structure Op where
  stream : Nat
  kind : OpKind
  deriving DecidableEq

/-- The fields of `Impl`. From `attempts` on it is not program state: the connection attempts, the assignments of
`writePayload`, the streams that were asked for a token, those of dropped connections, and the operations that were
started on one of these. -/
structure Impl where
  ioc : List Op
  ws : Option Nat
  state : State
  host : String
  port : String
  wantConnection : Bool
  nextAttempt : Int
  token : String
  triedStoredToken : Bool
  registerRequested : Bool
  registering : Bool
  registered : Bool
  registerFailed : Bool
  pendingValue : ℚ
  valueDirty : Bool
  writeInFlight : Bool
  writePayload : Option Json
  shuttingDown : Bool
  needsRecycle : Bool
  attempts : Nat
  payloads : Nat
  popups : List Nat
  dropped : List Nat
  late : List Op

/-- How a handler ends: it returns, an exception leaves it, or it uses a stream that is gone. -/
inductive Ret
  | done (s : Impl)
  | threw (s : Impl)
  | crash

/-- The outcome of an operation: the error code, the received message, the stored token, whether the token's file
operations return, and the clock. -/
structure Completion where
  ok : Bool
  msg : Option Json
  storedToken : Option String
  filesOk : Bool
  now : Int

/-- The `messageType` of a received message; `none` if the message is malformed. -/
def typeName (msg : Option Json) : Option String := msg.bind fun resp => resp.value Json.asString "messageType" ""

namespace Impl

/-- A client that was just constructed. -/
def new (now : Int) : Impl where
  ioc := []
  ws := none
  state := .disconnected
  host := ""
  port := ""
  wantConnection := false
  nextAttempt := now
  token := ""
  triedStoredToken := false
  registerRequested := false
  registering := false
  registered := false
  registerFailed := false
  pendingValue := 0
  valueDirty := false
  writeInFlight := false
  writePayload := none
  shuttingDown := false
  needsRecycle := false
  attempts := 0
  payloads := 0
  popups := []
  dropped := []
  late := []

/-- `connect(host, port)`. -/
def connect (s : Impl) (host port : String) (now : Int) : Impl :=
  { s with host := host, port := port, wantConnection := true, nextAttempt := now }

/-- `dropConnection(afterReady)`. -/
def dropConnection (s : Impl) (afterReady : Bool) (now : Int) : Impl :=
  if s.state = .disconnected then s
  else
    { s with
      state := .disconnected
      registering := false
      registered := false
      writeInFlight := false
      needsRecycle := true
      wantConnection := if afterReady then false else s.wantConnection
      nextAttempt := now + reconnectBackoffMs
      dropped := s.dropped ++ s.ws.toList }

def fail (s : Impl) (now : Int) : Impl := s.dropConnection true now

def retryLater (s : Impl) (now : Int) : Impl := s.dropConnection false now

/-- The operation is outstanding on the stream. -/
def addOp (s : Impl) (w : Nat) (kind : OpKind) : Impl :=
  { s with
    ioc := s.ioc ++ [⟨w, kind⟩]
    late := if w ∈ s.dropped then s.late ++ [⟨w, kind⟩] else s.late }

/-- An operation is started on the stream. -/
def start (s : Impl) (kind : OpKind) : Ret :=
  match s.ws with
  | none => .crash
  | some w => .done (s.addOp w kind)

def startConnect (s : Impl) : Impl :=
  { s with
    ws := some s.attempts
    triedStoredToken := false
    state := .resolving
    ioc := s.ioc ++ [⟨s.attempts, .resolve⟩]
    attempts := s.attempts + 1 }

def onResolve (s : Impl) : Ret := start { s with state := .connecting } .connect

def onConnected (s : Impl) : Ret := start { s with state := .handshaking } .handshake

/-- `sendRequestThenRead(request, readTimeoutMs, onResp)`. -/
def sendRequestThenRead (s : Impl) (request : Request) (onResp : OnResp) : Ret :=
  start
    { s with
      writePayload := some request.json
      payloads := s.payloads + 1
      popups := if request = Request.authenticationToken then s.popups ++ s.ws.toList else s.popups }
    (.requestWrite request onResp (s.payloads + 1))

def requestNewToken (s : Impl) : Ret :=
  sendRequestThenRead { s with triedStoredToken := false } .authenticationToken .onTokenResponse

def beginAuth (s : Impl) (c : Completion) : Ret :=
  if c.filesOk then
    let token := c.storedToken.getD ""
    if token ≠ "" then
      sendRequestThenRead { s with token := token, triedStoredToken := true } (.authentication token true)
        .onAuthResponse
    else requestNewToken { s with token := token }
  else .threw { s with token := "" }

def onHandshake (s : Impl) (c : Completion) : Ret :=
  match s.ws with
  | none => .crash
  | some _ => beginAuth { s with state := .authenticating } c

def onTokenResponse (s : Impl) (resp : Json) (c : Completion) : Ret :=
  match (resp.find? "data").bind (·.find? "authenticationToken") with
  | none => .done (s.retryLater c.now)
  | some member =>
    match member.asString with
    | none => .threw s
    | some token =>
      if c.filesOk then
        sendRequestThenRead { s with token := token } (.authentication token false) .onAuthResponse
      else .threw { s with token := token }

def startSteadyRead (s : Impl) : Ret := s.start .steadyRead

/-- `data.authenticated`; an exception if `data` or the flag has another type. -/
def authenticated (resp : Json) : Option Bool :=
  match resp.find? "data" with
  | none => some false
  | some data => data.value Json.asBool "authenticated" false

def onAuthResponse (s : Impl) (resp : Json) (c : Completion) : Ret :=
  match authenticated resp with
  | none => .threw s
  | some true => startSteadyRead { s with state := .ready }
  | some false => if s.triedStoredToken then s.requestNewToken else .done (s.retryLater c.now)

/-- The flags after a steady message; a malformed one is ignored. -/
def steadyMessage (s : Impl) (msg : Option Json) : Impl :=
  match typeName msg with
  | none => s
  | some typeName =>
    if typeName = "ParameterCreationResponse" then
      { s with registered := true, registering := false, registerFailed := false }
    else if s.registering ∧ typeName = "APIError" then { s with registering := false, registerFailed := true }
    else s

def onSteadyMessage (s : Impl) (msg : Option Json) : Ret :=
  let s := s.steadyMessage msg
  if !s.shuttingDown ∧ s.state = .ready then s.start .steadyRead else .done s

/-- `sendFireAndForget(request)`. -/
def sendFireAndForget (s : Impl) (request : Request) : Ret :=
  start { s with writePayload := some request.json, payloads := s.payloads + 1, writeInFlight := true }
    (.steadyWrite request (s.payloads + 1))

def startWriteIfNeeded (s : Impl) : Ret :=
  if s.writeInFlight ∨ s.state ≠ .ready then .done s
  else if s.registerRequested ∧ !s.registering then
    sendFireAndForget { s with registerRequested := false, registering := true, registerFailed := false }
      .parameterCreation
  else if s.valueDirty then sendFireAndForget { s with valueDirty := false } (.injectParameterData s.pendingValue)
  else .done s

/-- The handler of an operation that has completed. -/
def handle (s : Impl) (op : Op) (c : Completion) : Ret :=
  if s.shuttingDown then .done s
  else
    match op.kind with
    | .resolve => if c.ok then s.onResolve else .done (s.retryLater c.now)
    | .connect => if c.ok then s.onConnected else .done (s.retryLater c.now)
    | .handshake => if c.ok then s.onHandshake c else .done (s.retryLater c.now)
    | .requestWrite request onResp _ =>
      if c.ok then s.start (.responseRead request onResp) else .done (s.retryLater c.now)
    | .responseRead _ onResp =>
      if c.ok then
        match c.msg, onResp with
        | none, _ => .done (s.retryLater c.now)
        | some resp, .onTokenResponse => s.onTokenResponse resp c
        | some resp, .onAuthResponse => s.onAuthResponse resp c
      else .done (s.retryLater c.now)
    | .steadyRead => if c.ok then s.onSteadyMessage c.msg else .done (s.fail c.now)
    | .steadyWrite _ _ =>
      let s := { s with writeInFlight := false }
      if c.ok then .done s else .done (fail s c.now)

/-- The first half of `pump()` before its poll. -/
def connectIfDue (s : Impl) (now : Int) : Impl :=
  if s.wantConnection ∧ s.state = .disconnected ∧ !s.needsRecycle ∧ now ≥ s.nextAttempt then s.startConnect else s

/-- `pump()` up to its poll. -/
def beginPump (s : Impl) (now : Int) : Ret :=
  let s := s.connectIfDue now
  if s.state = .ready then s.startWriteIfNeeded else .done s

/-! ## What the pump can start -/

variable {s : Impl} {now : Int}

theorem start_eq {w : Nat} (h : s.ws = some w) (kind : OpKind) : s.start kind = .done (s.addOp w kind) := by
  simp [start, h]

/-- An operation that is started on a stream in use is not late. -/
theorem start_inUse {w : Nat} (h : s.ws = some w) (hd : w ∉ s.dropped) (kind : OpKind) :
    s.start kind = .done { s with ioc := s.ioc ++ [⟨w, kind⟩] } := by
  rw [start_eq h, addOp, if_neg hd]

theorem onHandshake_eq {w : Nat} (h : s.ws = some w) (c : Completion) :
    s.onHandshake c = beginAuth { s with state := .authenticating } c := by
  simp [onHandshake, h]

theorem connectIfDue_of_due (hw : s.wantConnection = true) (hd : s.state = .disconnected) (hr : s.needsRecycle = false)
    (hn : s.nextAttempt ≤ now) : s.connectIfDue now = s.startConnect :=
  if_pos ⟨hw, hd, by simp [hr], hn⟩

/-- The pump writes nothing, a registration, or the pending value. -/
theorem startWriteIfNeeded_cases {w : Nat} (hw : s.ws = some w) :
    s.startWriteIfNeeded = .done s ∨
    (s.state = .ready ∧ s.writeInFlight = false ∧ s.registering = false ∧
      s.startWriteIfNeeded = .done (addOp
        { s with
          registerRequested := false
          registering := true
          registerFailed := false
          writePayload := some Request.parameterCreation.json
          payloads := s.payloads + 1
          writeInFlight := true } w (.steadyWrite .parameterCreation (s.payloads + 1)))) ∨
    (s.state = .ready ∧ s.writeInFlight = false ∧ s.valueDirty = true ∧
      s.startWriteIfNeeded = .done (addOp
        { s with
          valueDirty := false
          writePayload := some (Request.injectParameterData s.pendingValue).json
          payloads := s.payloads + 1
          writeInFlight := true } w (.steadyWrite (.injectParameterData s.pendingValue) (s.payloads + 1)))) := by
  unfold startWriteIfNeeded
  split
  · exact .inl rfl
  · rename_i hready
    simp only [not_or, Bool.not_eq_true, Decidable.not_not] at hready
    split
    · rename_i hreg
      simp only [Bool.not_eq_true'] at hreg
      exact .inr (.inl ⟨hready.2, hready.1, hreg.2, start_eq (by exact hw) _⟩)
    · split
      · rename_i hdirty
        exact .inr (.inr ⟨hready.2, hready.1, hdirty, start_eq (by exact hw) _⟩)
      · exact .inl rfl

theorem beginPump_ready (h : s.state = .ready) : s.beginPump now = s.startWriteIfNeeded := by
  simp [beginPump, connectIfDue, h]

/-! ## What a steady message can do -/

variable {msg : Option Json}

/-- A steady message changes the flags of the registration at most, and it does not begin one. -/
theorem steadyMessage_frame (s : Impl) (msg : Option Json) : ∃ registered registering registerFailed,
    (registering = true → s.registering = true) ∧ s.steadyMessage msg =
      { s with registered := registered, registering := registering, registerFailed := registerFailed } := by
  unfold steadyMessage
  split
  · exact ⟨_, _, _, id, rfl⟩
  · split
    · exact ⟨true, false, false, nofun, rfl⟩
    · split
      · exact ⟨s.registered, false, true, nofun, rfl⟩
      · exact ⟨_, _, _, id, rfl⟩

/-- A steady message leaves the outstanding operations alone. -/
theorem steadyMessage_ioc (s : Impl) (ioc : List Op) (msg : Option Json) :
    steadyMessage { s with ioc := ioc } msg = { s.steadyMessage msg with ioc := ioc } := by
  unfold steadyMessage
  cases typeName msg with
  | none => rfl
  | some name => dsimp only; split <;> [rfl; split <;> rfl]

theorem steadyMessage_created (h : typeName msg = some "ParameterCreationResponse") :
    s.steadyMessage msg = { s with registered := true, registering := false, registerFailed := false } := by
  simp [steadyMessage, h]

theorem steadyMessage_error (h : typeName msg = some "APIError") (hr : s.registering = true) :
    s.steadyMessage msg = { s with registering := false, registerFailed := true } := by
  simp [steadyMessage, h, hr]

theorem steadyMessage_other (h : typeName msg ≠ some "ParameterCreationResponse")
    (he : s.registering = true → typeName msg ≠ some "APIError") : s.steadyMessage msg = s := by
  unfold steadyMessage
  split
  · rfl
  · rename_i name hname
    rw [hname] at h he
    rw [if_neg fun hn => h (congrArg some hn), if_neg fun hn => he hn.1 (congrArg some hn.2)]

/-- The steady read is armed again exactly on a ready link. -/
theorem onSteadyMessage_ready {w : Nat} (hs : s.shuttingDown = false) (hr : s.state = .ready) (hw : s.ws = some w) :
    s.onSteadyMessage msg = .done ((s.steadyMessage msg).addOp w .steadyRead) := by
  obtain ⟨registered, registering, registerFailed, -, heq⟩ := steadyMessage_frame s msg
  unfold onSteadyMessage
  rw [heq]
  simp [hs, hr, start, hw]

theorem onSteadyMessage_down (hr : s.state ≠ .ready) : s.onSteadyMessage msg = .done (s.steadyMessage msg) := by
  obtain ⟨registered, registering, registerFailed, -, heq⟩ := steadyMessage_frame s msg
  unfold onSteadyMessage
  rw [heq]
  simp [hr]

end Impl

/-! ## The client and its calls -/

/-- Where the caller is: between two calls, in the poll of `pump`, in its drain loop, in the poll of `teardown`, or
dead. -/
inductive Phase
  | idle
  | polling
  | draining
  | tearing
  | crashed
  deriving DecidableEq

/-- The `io_context` is polled. -/
def Phase.inPoll : Phase → Bool
  | polling | draining | tearing => true
  | _ => false

/-- The client; `threw` says that an exception has left the last `pump`. -/
structure Client where
  impl : Impl
  phase : Phase
  threw : Bool

/-- A public call, the completion of the outstanding operation at an index, or the end of a poll. -/
inductive Event
  | connect (host port : String) (now : Int)
  | requestRegister
  | setDetectValue (value : ℚ)
  | pump (now : Int)
  | complete (op : Nat) (c : Completion)
  | pollEnd
  | drainEnd
  | disconnect
  | teardownEnd

namespace Client

def new (now : Int) : Client := ⟨Impl.new now, .idle, false⟩

/-- A handler has run inside the poll of a phase. -/
def after (s : Client) (phase : Phase) : Ret → Client
  | .done impl => ⟨impl, phase, false⟩
  | .threw impl => ⟨impl, .idle, true⟩
  | .crash => { s with phase := .crashed }

/-- One step. -/
def next (s : Client) : Event → Option Client
  | .connect host port now =>
    if s.phase = .idle then some { s with impl := s.impl.connect host port now } else none
  | .requestRegister =>
    if s.phase = .idle then some { s with impl := { s.impl with registerFailed := false, registerRequested := true } }
    else none
  | .setDetectValue value =>
    if s.phase = .idle then some { s with impl := { s.impl with pendingValue := value, valueDirty := true } } else none
  | .pump now => if s.phase = .idle then some (s.after .polling (s.impl.beginPump now)) else none
  | .complete i c =>
    if s.phase.inPoll then
      s.impl.ioc[i]?.map fun op => s.after s.phase (Impl.handle { s.impl with ioc := s.impl.ioc.eraseIdx i } op c)
    else none
  | .pollEnd =>
    if s.phase = .polling then some { s with phase := if s.impl.needsRecycle then .draining else .idle } else none
  | .drainEnd =>
    if s.phase = .draining then
      some { s with impl := { s.impl with ws := none, needsRecycle := false }, phase := .idle }
    else none
  | .disconnect =>
    if s.phase = .idle then
      some { s with impl := { s.impl with wantConnection := false, shuttingDown := true }, phase := .tearing }
    else none
  | .teardownEnd =>
    if s.phase = .tearing then
      some { s with
        impl := { s.impl with
          ws := none
          shuttingDown := false
          state := .disconnected
          registered := false
          registering := false
          registerFailed := false }
        phase := .idle }
    else none

variable {s t : Client}

/-- A completion runs the handler of an outstanding operation. -/
theorem next_complete {i : Nat} {c : Completion} (h : s.next (.complete i c) = some t) :
    ∃ op, s.impl.ioc[i]? = some op ∧ s.phase.inPoll = true ∧
      t = s.after s.phase (Impl.handle { s.impl with ioc := s.impl.ioc.eraseIdx i } op c) := by
  simp only [next] at h
  split at h
  · rename_i hpoll
    obtain ⟨op, hop, rfl⟩ := Option.map_eq_some_iff.1 h
    exact ⟨op, hop, hpoll, rfl⟩
  · cases h

/-- A step that is guarded by the phase. -/
theorem of_guard {p : Prop} [Decidable p] (h : (if p then some s else none) = some t) : p ∧ t = s := by
  obtain ⟨hp, heq⟩ := Option.ite_none_right_eq_some.1 h
  exact ⟨hp, (Option.some.inj heq).symm⟩

theorem next_pump {now : Int} (h : s.next (.pump now) = some t) :
    s.phase = .idle ∧ t = s.after .polling (s.impl.beginPump now) :=
  of_guard h

theorem next_connect {host port : String} {now : Int} (h : s.next (.connect host port now) = some t) :
    s.phase = .idle ∧ t = { s with impl := s.impl.connect host port now } :=
  of_guard h

theorem next_requestRegister (h : s.next .requestRegister = some t) :
    s.phase = .idle ∧ t = { s with impl := { s.impl with registerFailed := false, registerRequested := true } } :=
  of_guard h

theorem next_setDetectValue {value : ℚ} (h : s.next (.setDetectValue value) = some t) :
    s.phase = .idle ∧ t = { s with impl := { s.impl with pendingValue := value, valueDirty := true } } :=
  of_guard h

theorem next_pollEnd (h : s.next .pollEnd = some t) :
    s.phase = .polling ∧ t = { s with phase := if s.impl.needsRecycle then .draining else .idle } :=
  of_guard h

theorem next_drainEnd (h : s.next .drainEnd = some t) :
    s.phase = .draining ∧ t = { s with impl := { s.impl with ws := none, needsRecycle := false }, phase := .idle } :=
  of_guard h

theorem next_disconnect (h : s.next .disconnect = some t) :
    s.phase = .idle ∧
      t = { s with impl := { s.impl with wantConnection := false, shuttingDown := true }, phase := .tearing } :=
  of_guard h

end Client

end Vts

end Bajiru.Linkjiru
