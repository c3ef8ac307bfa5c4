import Mgws.Proofs.Memory
import Mgws.Proofs.Paths
/-!
# What is sent of a file

The range that is announced lies in the file, and `static_cb` sends exactly that, in whatever
portions the send buffer has room for.
-/

namespace Mgws.Http

open Lib Program

/-! ## The range -/

theorem rangeOf_cases (range : Option (List UInt8)) (size : Nat) :
    rangeOf range size = ⟨200, 0, size⟩ ∨ rangeOf range size = ⟨416, 0, 0⟩ ∨
      ∃ r1 len, rangeOf range size = ⟨206, r1, len⟩ ∧ 0 < len ∧ r1 + len ≤ size := by
  cases range with
  | none => exact .inl rfl
  | some rh =>
      simp only [rangeOf]
      obtain ⟨n, r1, r2⟩ := getrange rh
      generalize (if n = 1 then (size + sizeMax) % 2 ^ 64 else r2) = last
      split
      · exact .inl rfl
      · split
        · exact .inr (.inl rfl)
        · next hrange =>
            refine .inr (.inr ⟨_, _, rfl, Nat.succ_pos _, ?_⟩)
            simp only [Bool.or_eq_true, decide_eq_true_eq, not_or, Nat.not_lt, Nat.not_le] at hrange
            omega

theorem rangeOf_le (range : Option (List UInt8)) (size : Nat) :
    (rangeOf range size).start + (rangeOf range size).len ≤ size := by
  obtain hall | hnone | ⟨r1, len, hpart, -, hle⟩ := rangeOf_cases range size
  · rw [hall]
    exact (Nat.zero_add size).le
  · rw [hnone]
    exact Nat.zero_le size
  · rw [hpart]
    exact hle

/-! ## The transfer -/

def Part.body (part : Part) (file : List UInt8) : List UInt8 :=
  (file.drop part.start).take part.len

def Transfer.pending (t : Transfer) : List UInt8 := t.rest.take t.cl

/-- With what was sent, what is still to be sent makes up the body; `http_cb` is back in place
only when there is nothing more. -/
structure Transfer.Sound (body : List UInt8) (t : Transfer) : Prop where
  body : t.sent ++ t.pending = body
  restored : t.restored → t.pending = []

variable {body : List UInt8} {t : Transfer} {room : Nat}

theorem staticCb_eq (h : room ≠ 0) :
    staticCb room t = ⟨t.rest.drop (min room t.pending.length), t.cl - min room t.pending.length,
      t.sent ++ t.pending.take room, t.pending = []⟩ := by
  have hgot : t.rest.take (min room t.cl) = t.pending.take room := by
    rw [Transfer.pending, List.take_take]
  have hnil : t.pending.take room = [] ↔ t.pending = [] := by
    rw [List.take_eq_nil_iff, or_iff_right h]
  rw [staticCb, if_neg h, hgot]
  dsimp only
  rw [List.length_take, decide_eq_decide.mpr hnil]

theorem staticCb_pending (h : room ≠ 0) :
    (staticCb room t).pending = t.pending.drop room := by
  rw [staticCb_eq h, Transfer.pending, ← List.drop_take]
  change t.pending.drop _ = t.pending.drop room
  cases Nat.le_total room t.pending.length with
  | inl hle => rw [min_eq_left hle]
  | inr hle => rw [min_eq_right hle, List.drop_length, List.drop_eq_nil_of_le hle]

theorem Transfer.Sound.staticCb (h : t.Sound body) (room : Nat) :
    (staticCb room t).Sound body := by
  by_cases hroom : room = 0
  · rwa [Http.staticCb, if_pos hroom]
  · constructor
    · rw [staticCb_pending hroom, staticCb_eq hroom, List.append_assoc, List.take_append_drop]
      exact h.body
    · intro hrestored
      rw [staticCb_eq hroom, decide_eq_true_eq] at hrestored
      rw [staticCb_pending hroom, hrestored, List.drop_nil]

theorem Transfer.Sound.staticCbs (h : t.Sound body) (rooms : List Nat) :
    (staticCbs t rooms).Sound body := by
  induction rooms generalizing t with
  | nil => exact h
  | cons room rooms ih =>
      rw [Http.staticCbs]
      split
      · exact h
      · exact ih (h.staticCb room)

/-- Every call that finds room sends something or is the last one. -/
theorem restored_of_pending_lt {rooms : List Nat}
    (h : t.pending.length < (rooms.filter (0 < ·)).length) : (staticCbs t rooms).restored := by
  induction rooms generalizing t with
  | nil => simp at h
  | cons room rooms ih =>
      rw [staticCbs]
      split
      · assumption
      · by_cases hroom : room = 0
        · rw [staticCb, if_pos hroom]
          refine ih ?_
          simpa [hroom] using h
        · cases hpending : t.pending with
          | nil =>
              -- the call that finds nothing left restores `http_cb`, and no other follows
              have hrestored : (staticCb room t).restored := by
                rw [staticCb_eq hroom, decide_eq_true hpending]
              cases rooms with
              | nil => exact hrestored
              | cons room' rooms => rwa [staticCbs, if_pos hrestored]
          | cons c s =>
              refine ih ?_
              rw [List.filter_cons_of_pos (by simpa using Nat.pos_of_ne_zero hroom),
                List.length_cons] at h
              rw [staticCb_pending hroom, List.length_drop]
              have hlen : t.pending.length = s.length + 1 := congrArg List.length hpending
              omega

theorem Part.sound_transfer (part : Part) (file : List UInt8) :
    (part.transfer file).Sound (part.body file) :=
  ⟨rfl, fun h => by cases h⟩

/-! ## The file of an answer -/

theorem mgHttpServeFile_file {fs : Fs} {size : Nat} {hm : HttpMsg} {path p : List UInt8}
    {gzip : Bool} {part : Part} (h : mgHttpServeFile fs size hm path = .file p gzip part) :
    ∃ file stat, fs.op p = some file ∧ fs.st p = some stat ∧
      part = rangeOf (mgHttpGetHeader hm.headers "Range") stat.size := by
  obtain ⟨status, hreply⟩ | ⟨q, gzip', file, stat, -, hop, hst, range, hrange, hhead | hfile⟩ :=
    mgHttpServeFile_cases fs size hm path
  · rw [hreply] at h
    cases h
  · rw [hhead] at h
    cases h
  · rw [hfile] at h
    obtain ⟨rfl, -, rfl⟩ := Answer.file.inj h
    exact ⟨file, stat, hop, hst, hrange⟩

theorem serveDir_file {fs : Fs} {rootDir junk : List UInt8} {hm : HttpMsg} {path : List UInt8}
    {gzip : Bool} {part : Part} (h : serveDir fs rootDir junk hm = .file path gzip part) :
    ∃ file stat, fs.op path = some file ∧ fs.st path = some stat ∧
      part = rangeOf (mgHttpGetHeader hm.headers "Range") stat.size := by
  rw [serveDir] at h
  split at h
  · cases h
  · cases h
  · cases h
  · exact mgHttpServeFile_file h

/-- The part that an answer announces lies in the file and is the whole file with status 200. -/
theorem serveDir_body {fs : Fs} {rootDir junk : List UInt8} {hm : HttpMsg} {path : List UInt8}
    {gzip : Bool} {part : Part} (h : serveDir fs rootDir junk hm = .file path gzip part)
    (hsize : ∀ p file stat, fs.op p = some file → fs.st p = some stat →
      stat.size = file.length) :
    ∃ file, fs.op path = some file ∧ (part.body file).length = part.len ∧
      (part.status = 200 → part.body file = file) := by
  obtain ⟨file, stat, hop, hst, hpart⟩ := serveDir_file h
  have hlen := hsize path file stat hop hst
  have hle : part.start + part.len ≤ file.length := by
    rw [hpart, ← hlen]
    exact rangeOf_le _ _
  refine ⟨file, hop, ?_, ?_⟩
  · rw [Part.body, List.length_take, List.length_drop]
    omega
  · intro hstatus
    obtain hall | hnone | ⟨r1, len, hsome, -⟩ :=
      rangeOf_cases (mgHttpGetHeader hm.headers "Range") stat.size
    · rw [hpart, hall, Part.body, List.drop_zero, hlen, List.take_length]
    · rw [hpart, hnone] at hstatus
      cases hstatus
    · rw [hpart, hsome] at hstatus
      cases hstatus

/-! ## The connection -/

def restored (c : Connection) : Connection := { c with pfn := .httpCb, isResp := false }

variable {st : Server} {k : ConnPtr} {c : Connection}

theorem pfnWrite_run (hc : st.conn? k = some c) (hpfn : c.pfn = .staticCb) (fileDone : Bool) :
    (pfnWrite k fileDone).run st = .ret () (if fileDone then st.updateConn k restored else st) := by
  rw [pfnWrite, bind_of_ret (run_get st), hc]
  cases fileDone with
  | false => simp
  | true =>
      rw [Option.any_some, decide_eq_true hpfn]
      rfl

theorem sendFile_run_of_other (h : (st.conn? k).any (·.pfn = .staticCb) = false)
    (rooms : List Nat) : (sendFile k t rooms).run st = .ret t st := by
  cases rooms with
  | nil => rfl
  | cons room rooms =>
      rw [sendFile, bind_of_ret (run_get st), h]
      rfl

/-- The handler of the connection is `static_cb` as long as something is to be sent. -/
theorem sendFile_run (hc : st.conn? k = some c) (hpfn : c.pfn = .staticCb)
    (ht : t.restored = false) (rooms : List Nat) :
    (sendFile k t rooms).run st = .ret (staticCbs t rooms)
      (if (staticCbs t rooms).restored then st.updateConn k restored else st) := by
  induction rooms generalizing t with
  | nil => simp [sendFile, staticCbs, ht]
  | cons room rooms ih =>
      have hhandler : (st.conn? k).any (·.pfn = .staticCb) = true := by simp [hc, hpfn]
      have hcalls : staticCbs t (room :: rooms) = staticCbs (staticCb room t) rooms := by
        rw [staticCbs, ht, if_neg Bool.false_ne_true]
      rw [sendFile, bind_of_ret (run_get st), if_pos hhandler, bind_of_ret (pfnWrite_run hc hpfn _),
        hcalls]
      cases hnext : (staticCb room t).restored with
      | false => exact ih hnext
      | true =>
          -- `http_cb` is back in place, so that no further call is made
          have hdone : staticCbs (staticCb room t) rooms = staticCb room t := by
            cases rooms with
            | nil => rfl
            | cons room' rooms => rw [staticCbs, if_pos hnext]
          have hother : ((st.updateConn k restored).conn? k).any (·.pfn = .staticCb) = false := by
            rw [Server.conn?_updateConn_self, hc]
            · rfl
            · exact fun _ => rfl
          rw [hdone, hnext, if_pos rfl, sendFile_run_of_other hother]

theorem mgHttpServeDir_file_run (hc : st.conn? k = some c) (status : Nat) :
    ∃ s, (mgHttpServeDir k (.file status)).run st = .ret () s ∧
      s.conn? k = some { c with send := c.send ++ [.http status], pfn := .staticCb } := by
  refine ⟨_, rfl, ?_⟩
  change ((st.queue k (.http status)).updateConn k _).conn? k = _
  rw [Server.conn?_updateConn_self, Server.queue, Server.conn?_updateConn_self, hc]
  · rfl
  · exact fun _ => rfl
  · exact fun _ => rfl

/-- A request for a file is answered by the announced part of it, which is the whole file with
status 200.  In whatever portions the send buffer has room, what was sent is always the beginning
of that part, the connection goes on to the next request only when it was sent to the end, and
it does so after finitely many calls that find room. -/
theorem serveDir_file_whole (fs : Fs) (rootDir junk : List UInt8) (hm : HttpMsg)
    (hsize : ∀ p file stat, fs.op p = some file → fs.st p = some stat → stat.size = file.length)
    {path : List UInt8} {gzip : Bool} {part : Part}
    (h : serveDir fs rootDir junk hm = .file path gzip part)
    (hc : st.conn? k = some c) (hresp : c.isResp = true) (rooms : List Nat) :
    ∃ file s t s' c', fs.op path = some file ∧ (part.body file).length = part.len ∧
      (part.status = 200 → part.body file = file) ∧
      (mgHttpServeDir k (serveDir fs rootDir junk hm).served).run st = .ret () s ∧
      (sendFile k (part.transfer file) rooms).run s = .ret t s' ∧ s'.conn? k = some c' ∧
      t.sent <+: part.body file ∧ (c'.isResp = false → t.sent = part.body file) ∧
      (part.len < (rooms.filter (0 < ·)).length → c'.isResp = false) := by
  obtain ⟨file, hop, hlen, hwhole⟩ := serveDir_body h hsize
  obtain ⟨s, hserve, hconn⟩ := mgHttpServeDir_file_run hc part.status
  have hsound := (part.sound_transfer file).staticCbs rooms
  have hsends := sendFile_run hconn rfl (show (part.transfer file).restored = false from rfl) rooms
  have hall : ∀ {t : Transfer}, t.Sound (part.body file) → t.restored →
      t.sent = part.body file := by
    intro t ht hrestored
    rw [← ht.body, ht.restored hrestored, List.append_nil]
  rw [h]
  cases hdone : (staticCbs (part.transfer file) rooms).restored with
  | true =>
      have hfree : (s.updateConn k restored).conn? k = some (restored
          { c with send := c.send ++ [.http part.status], pfn := .staticCb }) := by
        rw [Server.conn?_updateConn_self, hconn]
        · rfl
        · exact fun _ => rfl
      rw [hdone, if_pos rfl] at hsends
      exact ⟨file, s, _, _, _, hop, hlen, hwhole, hserve, hsends, hfree, ⟨_, hsound.body⟩,
        fun _ => hall hsound hdone, fun _ => rfl⟩
  | false =>
      rw [hdone, if_neg Bool.false_ne_true] at hsends
      refine ⟨file, s, _, _, _, hop, hlen, hwhole, hserve, hsends, hconn, ⟨_, hsound.body⟩, ?_, ?_⟩
      · intro hfree
        rw [hresp] at hfree
        cases hfree
      · intro hrooms
        have hpending : (part.transfer file).pending.length < (rooms.filter (0 < ·)).length :=
          hlen.symm ▸ hrooms
        rw [restored_of_pending_lt hpending] at hdone
        cases hdone

theorem size_oneFile (path file : List UInt8) :
    ∀ p file' stat, (oneFile path file).op p = some file' → (oneFile path file).st p = some stat →
      stat.size = file'.length := by
  intro p file' stat hop hst
  rw [oneFile] at hop hst
  dsimp only at hop hst
  split at hop
  · next hpath =>
      rw [if_pos hpath] at hst
      cases hop
      cases hst
      rfl
  · cases hop

theorem serveDir_file_whole_range :
    ∃ s t s' c',
      (mgHttpServeDir 1 (.file 206)).run (initial.updateConn 1 fun c => { c with isResp := true }) =
        .ret () s ∧
      (sendFile 1 ⟨[2, 3], 2, [], false⟩ [1, 0, 5, 5]).run s = .ret t s' ∧
      s'.conn? 1 = some c' ∧ c'.isResp = false ∧ t.sent = [2, 3] := by
  have hanswer : serveDir (oneFile (bytes "www/a") [1, 2, 3]) (bytes "www") (List.replicate 16 120)
      ⟨bytes "GET", bytes "/a", [], [], [⟨bytes "Range", bytes "bytes=1-"⟩], 0, 0⟩ =
        .file (bytes "www/a") false ⟨206, 1, 2⟩ := by decide
  have hconn : (initial.updateConn 1 fun c => { c with isResp := true }).conn? 1 =
      initial.conns.head?.map fun c => { c with isResp := true } := rfl
  obtain ⟨file, s, t, s', c', hop, -, -, hserve, hsend, hc', -, hwhole, hfree⟩ :=
    serveDir_file_whole (oneFile (bytes "www/a") [1, 2, 3]) (bytes "www") (List.replicate 16 120)
      ⟨bytes "GET", bytes "/a", [], [], [⟨bytes "Range", bytes "bytes=1-"⟩], 0, 0⟩
      (size_oneFile _ _) hanswer hconn rfl [1, 0, 5, 5]
  have hfile : file = [1, 2, 3] := (Option.some.inj hop).symm
  rw [hanswer] at hserve
  rw [hfile] at hsend hwhole
  have hdone := hfree (by decide)
  exact ⟨s, t, s', c', hserve, hsend, hc', hdone, hwhole hdone⟩

end Mgws.Http
