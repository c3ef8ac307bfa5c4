import Mgws.Step
/-!
# The event loop

`mgws::infinite_loop`: `mg_mgr_poll` again and again, with the one timer that the server has.
What the clock reads and what the sockets do during a poll is a parameter.
-/

namespace Mgws

open Lib Program

/-- What `read_conn` comes to: nothing yet, the end of the connection or an error, a receive buffer
that is full or cannot grow, or bytes, in which the protocol handler finds requests or frames. -/
inductive Received where
  | wait
  | failed
  | overflow
  | data (turns : List HttpTurn) (frames : List WsFrame)

/-- What a call of `mg_io_send` or `mg_tls_send` does; `fileDone` when `static_cb` finds nothing
more to put behind what was sent. -/
inductive Sent where
  | wait
  | failed
  | some (fileDone : Bool)

structure Io where
  /-- `EPOLLERR`. -/
  error : Bool
  readable : Bool
  writable : Bool
  /-- `static_cb` finds the end of its file on `MG_EV_POLL`. -/
  fileDone : Bool
  /-- What `http_cb` finds in the receive buffer after that. -/
  pending : List HttpTurn
  /-- Whether `mg_tls_init` succeeds for the connection that a listener accepts. -/
  tlsOk : Bool
  /-- How the TLS handshake ends, if it does. -/
  handshake : Option Bool
  recv : Received
  sent : Sent
  /-- The send buffer is empty at the end. -/
  flushed : Bool
  /-- What `http_cb` finds in the receive buffer on `MG_EV_CLOSE`. -/
  rest : List HttpTurn

/-- One turn of the endless loop: the readings of `mg_millis` before the timers and in the
callback of the timer, and what each socket does. -/
structure Poll where
  now : Nat
  callback : Nat
  io : ConnPtr → Io

def setClock (now : Nat) : Cpp Unit :=
  modify fun st => if st.now ≤ now then { st with now := now } else st

/-! ## Timers -/

def mgTimerExpired (t prd now : Nat) : Bool × Nat :=
  -- the clock has wrapped
  let t := if (now + prd) % 2 ^ 64 < t then 0 else t
  let t := if t = 0 then (now + prd) % 2 ^ 64 else t
  if now < t then (false, t)
  else (true, if prd < now - t then (now + prd) % 2 ^ 64 else (t + prd) % 2 ^ 64)

def pollIntervalMs : Nat := 500

/-- `mg_timer_poll`.  There is one timer, which repeats and does not run at once. -/
def mgTimerPoll (expire : Nat) (poll : Poll) : Cpp Nat := do
  let (expired, expire) := mgTimerExpired expire pollIntervalMs poll.now
  if expired then do
    setClock poll.callback
    let st ← get
    SessionManager.timerEvent st.now
  pure expire

/-! ## One connection -/

/-- `MG_EV_READ`.  The receive buffer of a connection that has had no
application data is empty. -/
def onRead [Nlohmann] (k : ConnPtr) (turns : List HttpTurn) (frames : List WsFrame) :
    Cpp Unit := do
  let st ← get
  match st.conn? k with
  | none => pure ()
  | some c => do
      mgNotify k
      if !c.isOpen then pure ()
      else
        match c.pfn with
        | .httpCb => httpCb k turns
        | .wsCb => mgWsCbs k frames
        | .staticCb => pure ()

/-- What the protocol handler does on `MG_EV_POLL` and `MG_EV_WRITE`: only `static_cb` has a
branch for them. -/
def pfnWrite (k : ConnPtr) (fileDone : Bool) : Cpp Unit := do
  let st ← get
  if (st.conn? k).any (·.pfn = .staticCb) && fileDone then restoreHttpCb k else pure ()

def onWrite (k : ConnPtr) (fileDone : Bool) : Cpp Unit := do
  mgNotify k
  pfnWrite k fileDone

/-- What `iolog` does when the socket has failed or reached its end: no `MG_EV_ERROR`. -/
def terminate (k : ConnPtr) : Cpp Unit :=
  setConn k fun c => { c with isClosing := true }

def readConn [Nlohmann] (k : ConnPtr) : Received → Cpp Unit
  | .wait => pure ()
  | .failed => terminate k
  | .overflow => mgError k
  | .data turns frames => onRead k turns frames

def writeConn (k : ConnPtr) : Sent → Cpp Unit
  | .wait => pure ()
  | .failed => terminate k
  | .some fileDone => onWrite k fileDone

/-- The chain of branches in `mg_mgr_poll`, for a connection that is not a socket of UDP and not
an outgoing one. -/
def serveConn [Nlohmann] (io : Io) (k : ConnPtr) (c : Connection) : Cpp Unit :=
  if c.isClosing then pure ()
  else if c.isListening then
    if io.readable then acceptConn io.tlsOk else pure ()
  else if c.isTlsHs then
    if io.readable || io.writable then
      match io.handshake with
      | none => pure ()
      | some ok => mgTlsHandshake k ok
    else pure ()
  else do
    if io.readable then readConn k io.recv
    if io.writable then writeConn k io.sent

/-- `MG_EV_POLL`, and `MG_EV_READ` without new data when that has completed a response: `http_cb`
goes on with the requests behind it. -/
def resumeConn [Nlohmann] (io : Io) (k : ConnPtr) : Cpp Unit := do
  let st ← get
  let isResp := (st.conn? k).any (·.isResp)
  onWrite k io.fileDone
  let st ← get
  if isResp && !(st.conn? k).any (·.isResp) then onRead k io.pending [] else pure ()

/-- A connection that has sent what it still had to send is closed, and one that is to be closed
is freed. -/
def reapConn [Nlohmann] (io : Io) (k : ConnPtr) : Cpp Unit := do
  onConn k (fun c => c.isDraining && io.flushed) (setConn k fun c => { c with isClosing := true })
  onConn k (·.isClosing) do
    let st ← get
    mgCloseConn k (if (st.conn? k).any (·.isOpen) then io.rest else [])

def pollConn [Nlohmann] (io : Io) (k : ConnPtr) : Cpp Unit := do
  resumeConn io k
  let st ← get
  match st.conn? k with
  | none => pure ()
  | some c => serveConn io k c
  reapConn io k

/-! ## All connections -/

def Server.next? (st : Server) (k : ConnPtr) : Option ConnPtr :=
  ((st.conns.map (·.ptr)).dropWhile (· ≠ k)).tail.head?

/-- The loop of `mg_mgr_poll` from one connection on.  The next one is read off before anything
happens; `n` is how many turns are looked at. -/
def pollFrom [Nlohmann] (io : ConnPtr → Io) : Nat → Option ConnPtr → Cpp Unit
  | _, none => pure ()
  | 0, some _ => pure ()
  | n + 1, some k => do
      let st ← get
      let tmp := st.next? k
      pollConn (io k) k
      pollFrom io n tmp

/-- `mg_iotest`, as far as it writes to the connections. -/
def mgIotest (io : ConnPtr → Io) : List ConnPtr → Cpp Unit
  | [] => pure ()
  | k :: ks => do
      if (io k).error then mgError k
      mgIotest io ks

/-- `mg_mgr_poll`, with the time at which the timer is due and is due next. -/
def mgMgrPoll [Nlohmann] (expire : Nat) (poll : Poll) : Cpp Nat := do
  let st ← get
  mgIotest poll.io (st.conns.map (·.ptr))
  setClock poll.now
  let expire ← mgTimerPoll expire poll
  let st ← get
  pollFrom poll.io st.conns.length (st.conns.head?.map (·.ptr))
  pure expire

def infiniteLoop [Nlohmann] (expire : Nat) : List Poll → Cpp Nat
  | [] => pure expire
  | poll :: polls => do
      let expire ← mgMgrPoll expire poll
      infiniteLoop expire polls

/-! ## Runs to look at -/

def readable (now : Nat) (k : ConnPtr) (recv : Received) : Poll where
  now := now
  callback := now
  io k' :=
    { error := false, readable := k' = k, writable := false, fileDone := false, pending := [],
      tlsOk := true, handshake := some true, recv := recv, sent := .wait, flushed := false,
      rest := [] }

def hidingPolls : List Poll :=
  [readable 0 1 .wait, readable 0 2 .wait,
    readable 0 2 (.data [.message (.websock true .returns)] []), readable 0 1 .wait]

end Mgws
