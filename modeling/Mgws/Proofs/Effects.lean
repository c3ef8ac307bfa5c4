import Mgws.Proofs.Iterate
import Mathlib.Logic.Relation
/-!
# Effects

What the server's code can do to its memory, one write or one group of writes
at a time.  Every action is a sequence of these effects, so an invariant of
the effects is an invariant of every run.

`Inner` holds what a request or a frame can do, which keeps the list of
connections; `Effect` adds the arrival and the end of a connection, the passing
of time and the timer.  `m` is the JSON
message that the action delivers, with the connection it came on; `R` restricts
the requests for `/websock` that are served.
-/

namespace Mgws

open Lib

def Frame.IsDirectory (frame : Frame) : Prop :=
  ∃ j, frame = .text j ∧ j.find? "type" = some (.str "SessionsChanged")

def Frame.isText : Frame → Bool
  | .text _ => true
  | _ => false

theorem Frame.not_isDirectory {frame : Frame} (h : frame.isText = false) :
    ¬frame.IsDirectory := by
  rintro ⟨j, rfl, -⟩
  cases h

structure Json.IsLocalIdEvent (j : Json) (id : Nat) (name : String) : Prop where
  type : j.find? "type" = some (.str "LocalIdEvent")
  sessionID : ∃ v, j.find? "sessionID" = some v ∧ v.eqNat id = true
  userName : j.find? "userName" = some (.str name)

def localIdChanged : Json := .obj [("type", .str "LocalIdChanged")]

def sessionIdMsg (id : Nat) : Json := .obj [("type", .str "SessionID"), ("id", .int id)]

namespace Server

variable (st : Server)

/-- Some connection of the list holds a pointer that may not be followed. -/
def Dangling : Prop :=
  ∃ c ∈ st.conns, ∃ p, c.fnData = .session p ∧ ¬st.Valid p

def pong (p : SessionPtr) : Server :=
  st.updateSession p fun s => { s with lastPongTime := st.now, pings := 0, ticks := 0 }

def rename (q : SessionPtr) (name : String) : Server :=
  { st.updateSession q fun s => { s with userName := name } with
    lastChange := some .renamed }

def upgrade (k : ConnPtr) (hasKey : Bool) : Server :=
  let st := st.updateConn k fun c => { c with pfn := .wsCb, frag := [] }
  if hasKey then
    (st.queue k (.http 101)).updateConn k fun c => { c with isWebsocket := true, isResp := false }
  else
    ((st.queue k (.http 426)).updateConn k fun c => { c with isResp := false }).updateConn k
      fun c => { c with isDraining := true }

def create (k : ConnPtr) : Server :=
  { st.updateConn k fun c => { c with fnData := .session st.nextSession } with
    heap := fun q => if q = st.nextSession then some (Peer.create k st.now) else st.heap q
    nextSession := st.nextSession + 1
    lastChange := some .added }

/-- The factory throws after `Session::Session` has stored its context. -/
def abandon (k : ConnPtr) : Server :=
  { st.updateConn k fun c => { c with fnData := .session st.nextSession } with
    nextSession := st.nextSession + 1 }

def websock (k : ConnPtr) (hasKey : Bool) : FactoryRun → Server
  | .returns =>
      ((st.upgrade k hasKey).create k).tell st.nextSession (sessionIdMsg (sessionId k))
  | .throwsEarly => st.upgrade k hasKey
  | .throwsLate => (st.upgrade k hasKey).abandon k
  | .throwsAfter => (st.upgrade k hasKey).create k

section

variable {st} {k : ConnPtr} (hasKey : Bool) (run : FactoryRun)

theorem heap_upgrade : (st.upgrade k hasKey).heap = st.heap := by
  cases hasKey <;> rfl

theorem now_upgrade : (st.upgrade k hasKey).now = st.now := by
  cases hasKey <;> rfl

theorem nextSession_upgrade : (st.upgrade k hasKey).nextSession = st.nextSession := by
  cases hasKey <;> rfl

theorem vanished_upgrade : (st.upgrade k hasKey).vanished = st.vanished := by
  cases hasKey <;> rfl

theorem lastChange_upgrade : (st.upgrade k hasKey).lastChange = st.lastChange := by
  cases hasKey <;> rfl

theorem heap_websock (q : SessionPtr) :
    (st.websock k hasKey run).heap q =
      if run.made ∧ q = st.nextSession then some (Peer.create k st.now)
      else st.heap q := by
  have hcreate : ((st.upgrade k hasKey).create k).heap q =
      if q = st.nextSession then some (Peer.create k st.now) else st.heap q := by
    rw [create, nextSession_upgrade, heap_upgrade, now_upgrade]
  cases run with
  | returns =>
      rw [websock, heap_tell, hcreate]
      simp only [FactoryRun.made, true_and]
  | throwsAfter =>
      rw [websock, hcreate]
      simp only [FactoryRun.made, true_and]
  | throwsEarly => exact congrFun (heap_upgrade hasKey) q
  | throwsLate => exact congrFun (heap_upgrade hasKey) q

end

def unlink (k : ConnPtr) : Server :=
  { st with
    conns := st.conns.filter fun c => c.ptr ≠ k
    detached := st.conn? k }

def delete (p : SessionPtr) : Server :=
  { st with
    heap := fun q => if q = p then none else st.heap q
    lastChange := some .deleted }

def free : Server := { st with detached := none }

def accept : Server :=
  { st with
    nextid := st.nextid + 1
    conns :=
      { ptr := st.nextid + 1, fnData := .manager, pfn := .httpCb, frag := [], send := [],
        isListening := false, isWebsocket := false, isTlsHs := false, isResp := false,
        isDraining := false, isClosing := false } :: st.conns }

end Server

inductive Inner (m : Option (ConnPtr × Json)) (R : Server → ConnPtr → Bool → FactoryRun → Prop) :
    Server → Server → Prop where
  | queue {st k frame} (hframe : ¬Frame.IsDirectory frame) : Inner m R st (st.queue k frame)
  | conn {st k f} (hf : ∀ c : Connection, c.SameAs (f c)) : Inner m R st (st.updateConn k f)
  | session {st p f} (hf : ∀ s : Session, s.SameAs (f s)) : Inner m R st (st.updateSession p f)
  | pong {st p} : Inner m R st (st.pong p)
  /-- `p`, on whose connection the message came, renames the session `q` that its
  id leads to, is told so, and the directory is sent. -/
  | rename {st k j c p q name} (hm : m = some (k, j)) (hc : c ∈ st.conns) (hk : c.ptr = k)
      (hctx : c.fnData = .session p) (hvalid : st.Valid p)
      (hall : ∀ r ∈ st.reached, st.Valid r) (hsmall : st.idOf p < 2 ^ 31)
      (hevent : j.IsLocalIdEvent (st.idOf p) name)
      (hq : q ∈ st.reached) (hid : st.idOf q = st.idOf p) :
      Inner m R st (((st.rename q name).tell p localIdChanged).broadcast)
  | websock {st k hasKey run} (hk : (st.conn? k).isSome) (hR : R st k hasKey run) :
      Inner m R st (st.websock k hasKey run)

/-- What `MG_EV_CLOSE` does for the user's handler, once `c` is out of the list:
a connection without a session just goes, the end of a session is told to the
others. -/
inductive Closes (st : Server) (c : Connection) : Server → Prop where
  | plain (hctx : c.fnData = .manager) : Closes st c (st.unlink c.ptr)
  | session {p} (hctx : c.fnData = .session p) (hvalid : st.Valid p)
      (hall : ∀ r ∈ ((st.unlink c.ptr).delete p).reached,
        ((st.unlink c.ptr).delete p).Valid r) :
      Closes st c (((st.unlink c.ptr).delete p).broadcast)

inductive Effect (m : Option (ConnPtr × Json)) (R : Server → ConnPtr → Bool → FactoryRun → Prop) :
    Server → Server → Prop where
  | inner {st st'} (h : Inner m R st st') : Effect m R st st'
  | close {st st' c} (hc : c ∈ st.conns) (hdetached : st.detached = none)
      (h : Closes st c st') : Effect m R st st'
  | free {st} : Effect m R st st.free
  | accept {st} (hdetached : st.detached = none) : Effect m R st st.accept
  | clock {st now} (hnow : st.now ≤ now) : Effect m R st { st with now := now }
  | probe {st p} : Effect m R st (st.probe p st.now)

def NoJoin : Server → ConnPtr → Bool → FactoryRun → Prop := fun _ _ _ _ => False

abbrev Effects (m : Option (ConnPtr × Json))
    (R : Server → ConnPtr → Bool → FactoryRun → Prop) : Server → Server → Prop :=
  Relation.ReflTransGen (Effect m R)

/-- A sequence of effects that keep the connections. -/
abbrev Inners (m : Option (ConnPtr × Json))
    (R : Server → ConnPtr → Bool → FactoryRun → Prop) : Server → Server → Prop :=
  Relation.ReflTransGen (Inner m R)

/-- An invariant of the effects is an invariant of their sequences. -/
theorem Effects.invariant {m : Option (ConnPtr × Json)}
    {R : Server → ConnPtr → Bool → FactoryRun → Prop} {I : Server → Prop} {st st' : Server}
    (h : Effects m R st st') (hst : I st) (heffect : ∀ s t, Effect m R s t → I s → I t) :
    I st' := by
  induction h with
  | refl => exact hst
  | tail _ hlast ih => exact heffect _ _ hlast ih

theorem Inners.invariant {m : Option (ConnPtr × Json)}
    {R : Server → ConnPtr → Bool → FactoryRun → Prop} {I : Server → Prop} {st st' : Server}
    (h : Inners m R st st') (hst : I st) (hinner : ∀ s t, Inner m R s t → I s → I t) :
    I st' := by
  induction h with
  | refl => exact hst
  | tail _ hlast ih => exact hinner _ _ hlast ih

section

variable {m : Option (ConnPtr × Json)} {R : Server → ConnPtr → Bool → FactoryRun → Prop}
  {st st' : Server}

theorem Inner.mono (h : Inner m NoJoin st st') : Inner m R st st' := by
  cases h with
  | queue hframe => exact .queue hframe
  | conn hf => exact .conn hf
  | session hf => exact .session hf
  | pong => exact .pong
  | rename hm hc hk hctx hvalid hall hsmall hevent hq hid =>
      exact .rename hm hc hk hctx hvalid hall hsmall hevent hq hid
  | websock _ hR => exact hR.elim

theorem Inners.mono (h : Inners m NoJoin st st') : Inners m R st st' :=
  h.invariant .refl fun _ _ hinner hs => hs.tail hinner.mono

theorem Effects.mono (h : Effects m NoJoin st st') : Effects m R st st' := by
  refine h.invariant .refl fun s t heffect hs => hs.tail ?_
  cases heffect with
  | inner hinner => exact .inner hinner.mono
  | close hc hdetached hcloses => exact .close hc hdetached hcloses
  | free => exact .free
  | accept hdetached => exact .accept hdetached
  | clock hnow => exact .clock hnow
  | probe => exact .probe

theorem Inners.effects (h : Inners m R st st') : Effects m R st st' :=
  h.invariant .refl fun _ _ hinner hs => hs.tail (.inner hinner)

end

end Mgws
