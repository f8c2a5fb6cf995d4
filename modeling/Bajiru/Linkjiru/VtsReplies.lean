import Bajiru.Linkjiru.VtsRegistration

/-!
# The replies of the auth phase

`sendRequestThenRead` catches a reply that is no JSON, but its response handlers then read members with accessors that
throw on another type. A reply ends in one of the intended outcomes (the next request, a ready link, a retry) exactly if
the members that its handler reads have the type that it expects (`reply_handled_iff`).
-/

namespace Bajiru.Linkjiru

namespace Vts

/-! ## The shape of a reply -/

/-- The token, if there is one, is a string. -/
def TokenTyped (resp : Json) : Prop :=
  ∀ data, resp.find? "data" = some data → ∀ member, data.find? "authenticationToken" = some member →
    ∃ token, member = .str token

/-- The token is there. -/
def Granted (resp : Json) : Prop :=
  ∃ data member, resp.find? "data" = some data ∧ data.find? "authenticationToken" = some member

/-- The data, if there are any, are an object, and its flag, if there is one, is a boolean. -/
def FlagTyped (resp : Json) : Prop :=
  ∀ data, resp.find? "data" = some data → (∃ members, data = .obj members) ∧
    ∀ member, data.find? "authenticated" = some member → ∃ b, member = .bool b

/-- The handler can read the reply: it is no JSON, or the members have the types that the handler expects, and a token
that is granted can be saved. -/
def Readable (onResp : OnResp) (c : Completion) : Prop :=
  ∀ resp, c.msg = some resp →
    match onResp with
    | .onTokenResponse => TokenTyped resp ∧ (Granted resp → c.filesOk = true)
    | .onAuthResponse => FlagTyped resp

/-- The intended outcomes of a reply on stream `w`, from the outstanding operations and `wantConnection` before: the
next request of the auth phase is sent, the link is Ready with its steady read, or it is dropped and will be retried. -/
inductive Outcome (w : Nat) (ioc : List Op) (wantConnection : Bool) (t : Impl) : Prop
  | request (request : Request) (onResp : OnResp) (hstate : t.state = .authenticating)
      (hioc : t.ioc = ioc ++ [⟨w, .requestWrite request onResp t.payloads⟩])
  | ready (hstate : t.state = .ready) (hioc : t.ioc = ioc ++ [⟨w, .steadyRead⟩])
  | retry (hstate : t.state = .disconnected) (hioc : t.ioc = ioc) (hrecycle : t.needsRecycle = true)
      (hwant : t.wantConnection = wantConnection)

theorem asString_eq_none {j : Json} : j.asString = none ↔ ¬ ∃ token, j = .str token := by
  cases j <;> simp [Json.asString]

theorem asBool_eq_none {j : Json} : j.asBool = none ↔ ¬ ∃ b, j = .bool b := by
  cases j <;> simp [Json.asBool]

/-- `value` throws on a value that is no object, and on a member of another type. -/
theorem value_eq_none {j : Json} {key : String} {fallback : Bool} : j.value Json.asBool key fallback = none ↔
    ¬ ((∃ members, j = .obj members) ∧ ∀ member, j.find? key = some member → ∃ b, member = .bool b) := by
  cases j with
  | obj members =>
    rw [Json.value]
    split
    · rename_i hfind
      simp [hfind]
    · rename_i member hfind
      rw [asBool_eq_none]
      simp [hfind]
  | _ => simp [Json.value]

/-- The flag cannot be read exactly if its type is wrong. -/
theorem authenticated_eq_none {resp : Json} : Impl.authenticated resp = none ↔ ¬ FlagTyped resp := by
  unfold Impl.authenticated FlagTyped
  cases resp.find? "data" with
  | none => simp
  | some data => simp [value_eq_none]

/-! ## The handlers of the replies -/

namespace Impl

variable {s : Impl} {w : Nat}

theorem outcome_retryLater (hs : s.state = .authenticating) (now : Int) :
    Outcome w s.ioc s.wantConnection (s.retryLater now) := by
  unfold retryLater dropConnection
  rw [if_neg (by rw [hs]; nofun)]
  exact .retry rfl rfl rfl rfl

/-- A request is sent on the stream. -/
theorem outcome_sendRequestThenRead (hs : s.state = .authenticating) (hw : s.ws = some w) (request : Request)
    (onResp : OnResp) : ∃ t, s.sendRequestThenRead request onResp = .done t ∧ Outcome w s.ioc s.wantConnection t :=
  ⟨_, start_eq (by exact hw) _, .request request onResp hs rfl⟩

theorem outcome_onTokenResponse (hs : s.state = .authenticating) (hw : s.ws = some w) (resp : Json) (c : Completion) :
    (∃ t, s.onTokenResponse resp c = .done t ∧ Outcome w s.ioc s.wantConnection t) ↔
      TokenTyped resp ∧ (Granted resp → c.filesOk = true) := by
  unfold onTokenResponse TokenTyped Granted
  cases hdata : resp.find? "data" with
  | none => exact iff_of_true ⟨_, rfl, outcome_retryLater hs c.now⟩ (by simp)
  | some data =>
    rw [Option.bind_some]
    cases hmember : data.find? "authenticationToken" with
    | none => exact iff_of_true ⟨_, rfl, outcome_retryLater hs c.now⟩ (by simp [hmember])
    | some member =>
      dsimp only
      cases htoken : member.asString with
      | none =>
        refine iff_of_false (fun ⟨t, ht, _⟩ => nomatch ht) fun ⟨htyped, _⟩ => ?_
        exact asString_eq_none.1 htoken (htyped data rfl member hmember)
      | some token =>
        have htyped : ∃ token, member = .str token := by
          by_contra hno
          rw [asString_eq_none.2 hno] at htoken
          cases htoken
        cases hfiles : c.filesOk with
        | true =>
          refine iff_of_true ?_ (by simp [hmember, htyped])
          exact outcome_sendRequestThenRead (s := { s with token := token }) hs hw (.authentication token false)
            .onAuthResponse
        | false =>
          exact iff_of_false (fun ⟨t, ht, _⟩ => nomatch ht) fun ⟨_, hsaved⟩ =>
            Bool.false_ne_true (hsaved ⟨data, member, rfl, hmember⟩)

theorem outcome_onAuthResponse (hs : s.state = .authenticating) (hw : s.ws = some w) (resp : Json) (c : Completion) :
    (∃ t, s.onAuthResponse resp c = .done t ∧ Outcome w s.ioc s.wantConnection t) ↔ FlagTyped resp := by
  unfold onAuthResponse
  cases hflag : authenticated resp with
  | none => exact iff_of_false (fun ⟨t, ht, _⟩ => nomatch ht) (authenticated_eq_none.1 hflag)
  | some authed =>
    have htyped : FlagTyped resp := by
      by_contra hno
      rw [authenticated_eq_none.2 hno] at hflag
      cases hflag
    refine iff_of_true ?_ htyped
    cases authed with
    | true => exact ⟨_, start_eq (by exact hw) _, .ready rfl rfl⟩
    | false =>
      dsimp only
      split
      · exact outcome_sendRequestThenRead (s := { s with triedStoredToken := false }) hs hw .authenticationToken
          .onTokenResponse
      · exact ⟨_, rfl, outcome_retryLater hs c.now⟩

end Impl

/-- **A reply of the auth phase is handled**, in one of the intended outcomes and without an exception, exactly if its
handler can read it. -/
theorem reply_handled_iff {s : Impl} {w : Nat} {op : Op} {request : Request} {onResp : OnResp} {c : Completion}
    (hs : s.state = .authenticating) (hrunning : s.shuttingDown = false) (hw : s.ws = some w)
    (hop : op.kind = .responseRead request onResp) (hreply : c.ok = true) :
    (∃ t, s.handle op c = .done t ∧ Outcome w s.ioc s.wantConnection t) ↔ Readable onResp c := by
  unfold Impl.handle Readable
  rw [if_neg (by simp [hrunning]), hop]
  dsimp only
  rw [if_pos hreply]
  cases hmsg : c.msg with
  | none => exact iff_of_true ⟨_, rfl, Impl.outcome_retryLater hs c.now⟩ nofun
  | some resp =>
    cases onResp with
    | onTokenResponse => simpa using Impl.outcome_onTokenResponse hs hw resp c
    | onAuthResponse => simpa using Impl.outcome_onAuthResponse hs hw resp c

/-- A client that waits for the reply to its authentication. -/
def authenticatingImpl : Impl := { Impl.new 0 with ws := some 0, state := .authenticating, attempts := 1, payloads := 1 }

theorem reply_handled_refused : ∃ t,
    authenticatingImpl.handle ⟨0, .responseRead (.authentication "token" false) .onAuthResponse⟩
      (succeeds (message "APIError" (.obj [("errorID", .num 50)]))) = .done t ∧
        Outcome 0 [] false t :=
  (reply_handled_iff (s := authenticatingImpl) rfl rfl rfl rfl rfl).2 fun resp hresp => by
    cases hresp
    intro data hdata
    obtain rfl : Json.obj [("errorID", .num 50)] = data := by simpa [message] using hdata
    exact ⟨⟨_, rfl⟩, fun member hmember => by simp [Json.find?] at hmember⟩

/-- The client gets to the reply to its authentication with the stored token. -/
def repliedRun : List Event :=
  [.connect "localhost" "8001" 0, .pump 0] ++ List.replicate 4 (.complete 0 (succeeds none))

/-- The reply `"data": null`. -/
def nullReply : Completion := succeeds (message "AuthenticationResponse" .null)

theorem reply_throws : ¬ ∀ now es s, execute Client.next (Client.new now) es = some s →
    s.impl.state = .authenticating → ∀ i request onResp, s.impl.ioc[i]?.map Op.kind = some (.responseRead request onResp) →
      ∀ c t, c.ok = true → c.filesOk = true → s.next (.complete i c) = some t → t.threw = false := by
  intro hall
  obtain ⟨s, hs, heq⟩ := Option.map_eq_some_iff.1 (show
    (execute Client.next (Client.new 0) repliedRun).map (fun s => (s.impl.state, s.impl.ioc[0]?.map Op.kind)) =
      some (.authenticating, some (.responseRead (.authentication "token" true) .onAuthResponse)) by decide +kernel)
  obtain ⟨t, ht, hthrew⟩ := Option.map_eq_some_iff.1 (show
    (execute Client.next (Client.new 0) (repliedRun ++ [.complete 0 nullReply])).map (·.threw) = some true
      by decide +kernel)
  rw [Prod.mk.injEq] at heq
  have hnext : s.next (.complete 0 nullReply) = some t := execute_of_snoc ht hs
  rw [hall 0 repliedRun s hs heq.1 0 _ _ heq.2 nullReply t rfl rfl hnext] at hthrew
  cases hthrew

end Vts

end Bajiru.Linkjiru
