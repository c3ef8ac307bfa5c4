import Mgws.Peer
/-!
# Event handlers

`SessionManager::fn`, the protocol handlers of mongoose that call it, and the
life of a connection from `accept_conn` to `mg_close_conn`.

What the network decides is a parameter: how the bytes that were read split
into requests and frames, what `mg_http_serve_dir` finds under the requested
path, whether a TLS handshake succeeds and whether the factory throws.
-/

namespace Mgws

open Lib Program

/-- How the building of a session goes.  `throwsEarly` is an exception of the
factory before `Session::Session` has run; after `throwsLate` the constructor has
stored a context in `fn_data` whose session is destroyed again; with `throwsAfter`
the factory returns and the message for the new session cannot be allocated. -/
inductive FactoryRun where
  | returns
  | throwsEarly
  | throwsLate
  | throwsAfter
  deriving DecidableEq, Repr

def FactoryRun.made : FactoryRun → Bool
  | returns | throwsAfter => true
  | throwsEarly | throwsLate => false

theorem FactoryRun.ne_of_made {run : FactoryRun} (h : run.made = true) :
    run ≠ .throwsEarly ∧ run ≠ .throwsLate := by
  constructor <;> rintro rfl <;> cases h

inductive Served where
  | reply (status : Nat)
  | head (status : Nat)
  | file (status : Nat)
  deriving DecidableEq, Repr

inductive HttpMessage where
  | websock (hasKey : Bool) (factory : FactoryRun)
  | other (served : Served)
  deriving DecidableEq, Repr

inductive HttpTurn where
  | malformed
  | message (hm : HttpMessage)
  deriving DecidableEq, Repr

inductive Event where
  | accept (tlsOk : Bool)
  | httpMsg (hm : HttpMessage)
  | wsMsg (data : Option (List UInt8))
  | wsCtl (flags : UInt8)
  | close

def setConn (k : ConnPtr) (f : Connection → Connection) : Cpp Unit :=
  modify (·.updateConn k f)

/-- `mgws::_fn` reads `ctx->_mgws`, also for an event that `fn` has no branch for. -/
def readMgws : Context → Cpp Unit
  | .manager => pure ()
  | .session p => do
      let st ← get
      if (st.heap p).isSome then pure () else abort (.deadContext p)

/-- `mg_call` with an event that neither `fn` nor a protocol handler has a branch for. -/
def mgNotify (k : ConnPtr) : Cpp Unit := do
  let st ← get
  match st.conn? k with
  | none => pure ()
  | some c => readMgws c.fnData

/-- `mg_error`, which ends with `MG_EV_ERROR`. -/
def mgError (k : ConnPtr) : Cpp Unit := do
  setConn k fun c => { c with isClosing := true }
  mgNotify k

def mgTlsInit (k : ConnPtr) (ok : Bool) : Cpp Unit :=
  if ok then setConn k fun c => { c with isTlsHs := true } else mgError k

def mgHttpReply (k : ConnPtr) (status : Nat) : Cpp Unit := do
  mgWsSend k (.http status)
  setConn k fun c => { c with isResp := false }

def mgHttpServeDir (k : ConnPtr) : Served → Cpp Unit
  | .reply status => mgHttpReply k status
  | .head status => do
      mgHttpReply k status
      setConn k fun c => { c with isDraining := true }
  | .file status => do
      mgWsSend k (.http status)
      setConn k fun c => { c with pfn := .staticCb }

/-- `mg_ws_upgrade`.  A request without a key is answered by 426 and the
connection goes on with the websocket handler all the same.  `MG_EV_WS_OPEN` goes
to the context that the request has just gone to. -/
def mgWsUpgrade (k : ConnPtr) (hasKey : Bool) : Cpp Unit := do
  setConn k fun c => { c with pfn := .wsCb, frag := [] }
  if hasKey then
    mgWsSend k (.http 101)
    setConn k fun c => { c with isWebsocket := true, isResp := false }
  else
    mgHttpReply k 426
    setConn k fun c => { c with isDraining := true }

namespace SessionManager

/-- `m_factory(ctx, *c)`.  The constructor of `Session` makes `fn_data` point
into the new object. -/
def factory (k : ConnPtr) : FactoryRun → Cpp SessionPtr
  | .returns | .throwsAfter => do
      let st ← get
      let p := st.nextSession
      modify fun st =>
        { st.updateConn k fun c => { c with fnData := .session p } with
          heap := fun q => if q = p then some (Peer.create k st.now) else st.heap q
          nextSession := p + 1
          lastChange := some .added }
      pure p
  | .throwsEarly => raise .badAlloc
  | .throwsLate => do
      modify fun st =>
        { st.updateConn k fun c => { c with fnData := .session st.nextSession } with
          nextSession := st.nextSession + 1 }
      raise .badAlloc

/-- The argument of `Send` is built outside `Send`'s own `try`. -/
def sessionIdArgument (id : Nat) : FactoryRun → Except Exn Json
  | .throwsAfter => .error .badAlloc
  | _ => .ok (.obj [("type", .str "SessionID"), ("id", .int id)])

def addSession (k : ConnPtr) (run : FactoryRun) : Cpp Bool :=
  tryCatch (do
    let session ← factory k run
    let id ← Session.getId session
    let msg ← ofExcept (sessionIdArgument id run)
    Session.send session msg
    pure true)
    fun _ => pure false

def delete (p : SessionPtr) : Cpp Unit := do
  let st ← get
  match st.heap p with
  | none => abort (.doubleDelete p)
  | some _ =>
      modify fun st =>
        { st with
          heap := fun q => if q = p then none else st.heap q
          lastChange := some .deleted }

/-- The log line before `delete` reads the session's id. -/
def deleteSession (session : SessionPtr) : Cpp Unit := do
  let _ ← Session.getId session
  delete session
  updateSessionsList

def fn [Nlohmann] (k : ConnPtr) (ctx : Context) : Event → Cpp Unit
  | .accept tlsOk => mgTlsInit k tlsOk
  | .httpMsg (.websock hasKey run) => do
      mgWsUpgrade k hasKey
      let _ ← addSession k run
      pure ()
  | .httpMsg (.other served) => mgHttpServeDir k served
  | .wsMsg data =>
      match ctx.userData with
      | none => pure ()
      | some session => Peer.onMessage session data
  | .wsCtl flags =>
      match ctx.userData with
      | none => pure ()
      | some session => Session.onControlMessage session flags
  | .close =>
      match ctx.userData with
      | none => pure ()
      | some session => deleteSession session

end SessionManager

/-- `mg_call`, without the protocol handler: that one ignores every event below
but `MG_EV_CLOSE`, which `mgCloseConn` passes on itself. -/
def mgCall [Nlohmann] (k : ConnPtr) (ev : Event) : Cpp Unit := do
  let st ← get
  match st.conn? k with
  | none => pure ()
  | some c => do
      readMgws c.fnData
      SessionManager.fn k c.fnData ev

/-- The loop of `http_cb`.  It goes on while no response is pending, also when
a request has just handed the connection to another protocol handler. -/
def httpCb [Nlohmann] (k : ConnPtr) : List HttpTurn → Cpp Unit
  | [] => pure ()
  | turn :: turns => do
      let st ← get
      if (st.conn? k).any (·.isResp) then
        pure ()
      else
        match turn with
        | .malformed => mgError k
        | .message hm => do
            setConn k fun c => { c with isResp := true }
            mgCall k (.httpMsg hm)
            httpCb k turns

def restoreHttpCb (k : ConnPtr) : Cpp Unit :=
  setConn k fun c => { c with pfn := .httpCb, isResp := false }

structure WsFrame where
  flags : UInt8
  data : List UInt8

def WsFrame.final (frame : WsFrame) : Bool := frame.flags &&& 128 != 0

def WsFrame.op (frame : WsFrame) : UInt8 := frame.flags &&& 15

def wsOp [Nlohmann] (k : ConnPtr) (frame : WsFrame) : Cpp Unit :=
  match frame.op.toNat with
  | 0 => mgCall k (.wsCtl frame.flags)
  | 9 => do
      mgWsSend k (.pong frame.data)
      mgCall k (.wsCtl frame.flags)
  | 10 => mgCall k (.wsCtl frame.flags)
  | 1 | 2 => if frame.final then mgCall k (.wsMsg (some frame.data)) else pure ()
  | 8 => do
      mgCall k (.wsCtl frame.flags)
      mgWsSend k (.close frame.data)
      setConn k fun c => { c with isDraining := true }
  | _ => mgError k

/-- The message that the last fragment completes.  The first byte kept is the
flags of the first fragment; when nothing was kept the length wraps. -/
def fragMessage : List UInt8 → Option (List UInt8)
  | [] => none
  | _ :: data => some data

/-- Fragmented frames: the payload is kept, behind the flags of a fragment that
is no continuation. -/
def keepFragment (k : ConnPtr) (frame : WsFrame) : Cpp Unit :=
  if !frame.final || frame.op = 0 then
    let flags := if frame.op = 0 then [] else [frame.flags]
    setConn k fun c => { c with frag := c.frag ++ flags ++ frame.data }
  else
    pure ()

def endFragments [Nlohmann] (k : ConnPtr) (frame : WsFrame) : Cpp Unit :=
  if frame.final && frame.op = 0 then do
    let st ← get
    mgCall k (.wsMsg (fragMessage ((st.conn? k).elim [] (·.frag))))
    setConn k fun c => { c with frag := [] }
  else
    pure ()

def mgWsCb [Nlohmann] (k : ConnPtr) (frame : WsFrame) : Cpp Unit := do
  wsOp k frame
  keepFragment k frame
  endFragments k frame

def mgWsCbs [Nlohmann] (k : ConnPtr) : List WsFrame → Cpp Unit
  | [] => pure ()
  | frame :: frames => do
      mgWsCb k frame
      mgWsCbs k frames

/-- What the protocol handler does on `MG_EV_CLOSE`; `turns` is what `http_cb`
still finds in the receive buffer.  It goes to the context of the connection, also
when that was part of the session just deleted. -/
def pfnClose [Nlohmann] (k : ConnPtr) (turns : List HttpTurn) : Cpp Unit := do
  let st ← get
  match (st.conn? k).map Connection.pfn with
  | some .httpCb => httpCb k turns
  | some .staticCb => restoreHttpCb k
  | _ => pure ()

/-- `mg_close_conn`.  The connection leaves the list before `MG_EV_CLOSE` goes to
the user's handler and then to the protocol handler. -/
def mgCloseConn [Nlohmann] (k : ConnPtr) (turns : List HttpTurn) : Cpp Unit := do
  modify fun st =>
    { st with
      conns := st.conns.filter fun c => c.ptr ≠ k
      detached := st.conn? k }
  mgCall k .close
  pfnClose k turns
  modify fun st => { st with detached := none }

def acceptConn [Nlohmann] (tlsOk : Bool) : Cpp Unit := do
  let st ← get
  let k := st.nextid + 1
  modify fun st =>
    { st with
      nextid := k
      conns :=
        { ptr := k, fnData := .manager, pfn := .httpCb, frag := [], send := [],
          isListening := false, isWebsocket := false, isTlsHs := false, isResp := false,
          isDraining := false, isClosing := false } :: st.conns }
  mgCall k (.accept tlsOk)

def mgTlsHandshake (k : ConnPtr) (ok : Bool) : Cpp Unit :=
  if ok then do
    setConn k fun c => { c with isTlsHs := false }
    mgNotify k
  else mgError k

end Mgws
