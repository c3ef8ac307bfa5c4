import Mgws.Proofs.Blind
import Mgws.Proofs.Grammar
/-!
# Reads and frames

A read on a websocket has the effect of the frames that it completes, one action each.  So the
pieces in which a client's bytes arrive make no difference, and neither do the fragments into
which it cuts a message.
-/

namespace Mgws

open Lib Program

/-- A connection at `k` is there, with `v` hidden, between two actions. -/
structure Server.Serves (st : Server) (k : ConnPtr) (v : Hidden) : Prop where
  wf : st.Wf
  detached : st.detached = none
  conn : ∃ c, st.conn? k = some c ∧ c.hidden = v

section

variable {st s : Server} {k : ConnPtr} {v : Hidden} {α : Type}

theorem eq_of_conn? (hwf : st.Wf) {c d : Connection} (hc : st.conn? k = some c)
    (hd : d ∈ st.allocated) (hk : d.ptr = k) : d = c := by
  have hnodup : (st.allocated.map (·.ptr)).Nodup := by
    have h := hwf.wiring.nodup
    rwa [Server.allocated_wiring, List.map_map] at h
  exact List.inj_on_of_nodup_map hnodup hd (Server.mem_allocated_of_conn? hc)
    (hk.trans (Server.ptr_of_conn? hc).symm)

theorem updateConn_congr (hwf : st.Wf) {c : Connection} (hc : st.conn? k = some c)
    {f g : Connection → Connection} (hfg : f c = g c) :
    st.updateConn k f = st.updateConn k g := by
  have hsame : ∀ d ∈ st.allocated,
      (if d.ptr = k then f d else d) = if d.ptr = k then g d else d := by
    intro d hd
    by_cases hk : d.ptr = k
    · rw [eq_of_conn? hwf hc hd hk, hfg]
    · rw [if_neg hk, if_neg hk]
  simp only [Server.updateConn]
  congr 1
  · exact List.map_congr_left fun d hd => hsame d (List.mem_append_left _ hd)
  · refine Option.map_congr fun d hd => hsame d (List.mem_append_right _ ?_)
    exact Option.mem_toList.mpr hd

theorem updateConn_id (st : Server) (k : ConnPtr) : st.updateConn k (fun c => c) = st := by
  simp [Server.updateConn]

theorem Server.Serves.hide_self (h : st.Serves k v) : st.hide k v = st := by
  obtain ⟨c, hc, rfl⟩ := h.conn
  have hself : Connection.hide c.hidden c = c := rfl
  rw [Server.hide, updateConn_congr h.wf hc (g := fun c => c) hself, updateConn_id]

theorem Server.Serves.of_ret {m : Option (ConnPtr × Json)} (h : st.Serves k v) {x : Cpp α} {a : α}
    (hblind : Blind k v x) (hruns : Runs m NoJoin st x) (hrun : x.run st = .ret a s) :
    s.Serves k v := by
  have hinners : Inners m NoJoin st s := by
    have hends := hruns.ends
    rwa [hrun] at hends
  have hfixed : s.hide k v = s := hblind.fixed h.hide_self hrun
  obtain ⟨c, hc, hv⟩ := h.conn
  have hsome : (s.conn? k).isSome := by
    rw [Server.conn?_isSome_wiring, hinners.wiring_eq, ← Server.conn?_isSome_wiring, hc]
    rfl
  obtain ⟨d, hd⟩ := Option.isSome_iff_exists.mp hsome
  refine ⟨hinners.wf h.wf, hinners.detached_none h.detached, d, hd, ?_⟩
  rw [← hfixed, Server.conn?_hide] at hd
  obtain ⟨e, he, rfl⟩ := Option.map_eq_some_iff.mp hd
  rw [if_pos (Server.ptr_of_conn? he)]
  rfl

theorem Server.Serves.cases {m : Option (ConnPtr × Json)} (h : st.Serves k v) {x : Cpp Unit}
    (hblind : Blind k v x) (hruns : Runs m NoJoin st x) :
    (∃ s, x.run st = .ret () s ∧ s.Serves k v) ∨ ∃ f, x.run st = .fault f := by
  have hends := hruns.ends
  cases hrun : x.run st with
  | ret a s => exact .inl ⟨s, rfl, h.of_ret hblind hruns hrun⟩
  | throw e s =>
      rw [hrun] at hends
      exact hends.elim
  | fault f => exact .inr ⟨f, rfl⟩

theorem Server.Serves.setFrag (h : st.Serves k v) (frag : List UInt8) :
    (st.updateConn k fun c => { c with frag := frag }).Serves k { v with frag := frag } := by
  have hinner : Inners none NoJoin st (st.updateConn k fun c => { c with frag := frag }) :=
    .single (.conn fun _ => ⟨rfl, rfl⟩)
  obtain ⟨c, hc, rfl⟩ := h.conn
  refine ⟨hinner.wf h.wf, hinner.detached_none h.detached, { c with frag := frag }, ?_, rfl⟩
  rw [Server.conn?_updateConn_self (f := fun c => { c with frag := frag }) fun _ => rfl, hc]
  rfl

/-- The effects of a frame, with the message that it completes. -/
theorem Server.Serves.wsOp_runs [Nlohmann] (h : st.Serves k v) (frame : WsFrame) :
    Runs (((frame.message v.frag).bind Nlohmann.parse).map fun j => (k, j)) NoJoin st
      (wsOp k frame) := by
  have hm : ∀ j, (frame.message v.frag).bind Nlohmann.parse = some j →
      ((frame.message v.frag).bind Nlohmann.parse).map (fun j => (k, j)) = some (k, j) := by
    intro j hj
    rw [hj]
    rfl
  exact Mgws.wsOp_runs h.wf h.detached hm

theorem wsOp_serves [Nlohmann] (h : st.Serves k v) (frame : WsFrame) :
    (∃ s, (wsOp k frame).run st = .ret () s ∧ s.Serves k v) ∨
      ∃ f, (wsOp k frame).run st = .fault f :=
  h.cases (wsOp_blind k frame) (h.wsOp_runs frame)

theorem wsMsg_serves [Nlohmann] (h : st.Serves k v) (data : Option (List UInt8)) :
    (∃ s, (mgCall k (.wsMsg data)).run st = .ret () s ∧ s.Serves k v) ∨
      ∃ f, (mgCall k (.wsMsg data)).run st = .fault f :=
  h.cases (wsMsg_blind k data) (.of_ends fun _ hs =>
    mgCall_wsMsg_ends (m := (data.bind Nlohmann.parse).map fun j => (k, j)) (hs.wf h.wf)
      (hs.detached_none h.detached) fun j hj => by rw [hj]; rfl)

/-! ## One frame -/

def WsFrame.kept (frame : WsFrame) : List UInt8 :=
  (if frame.op = 0 then [] else [frame.flags]) ++ frame.data

variable {frame : WsFrame}

theorem mgWsCb_whole [Nlohmann] (hfinal : frame.final = true) (hop : frame.op ≠ 0) :
    mgWsCb k frame = wsOp k frame := by
  simp [mgWsCb, keepFragment, endFragments, hfinal, hop]

theorem keepFragment_run (h : st.Serves k v) (hkeep : frame.final = false ∨ frame.op = 0) :
    (keepFragment k frame).run st =
      .ret () (st.updateConn k fun c => { c with frag := v.frag ++ frame.kept }) := by
  obtain ⟨c, hc, rfl⟩ := h.conn
  have hset : keepFragment k frame =
      setConn k fun c => { c with frag := c.frag ++ frame.kept } := by
    simp only [keepFragment, WsFrame.kept, List.append_assoc]
    rw [if_pos (by simpa using hkeep)]
  rw [hset, setConn, run_modify]
  exact congrArg _ (updateConn_congr h.wf hc rfl)

theorem mgWsCb_fragment [Nlohmann] (hfinal : frame.final = false)
    (hrun : (wsOp k frame).run st = .ret () s) (hs : s.Serves k v) :
    (mgWsCb k frame).run st =
      .ret () (s.updateConn k fun c => { c with frag := v.frag ++ frame.kept }) := by
  rw [mgWsCb, bind_of_ret hrun, bind_of_ret (keepFragment_run hs (.inl hfinal))]
  simp [endFragments, hfinal]

theorem mgWsCb_last [Nlohmann] (hfinal : frame.final = true) (hop : frame.op = 0)
    (hrun : (wsOp k frame).run st = .ret () s) (hs : s.Serves k v) :
    (mgWsCb k frame).run st =
      (mgCall k (.wsMsg (fragMessage (v.frag ++ frame.kept))) >>= fun _ =>
        setConn k fun c => { c with frag := [] }).run
          (s.updateConn k fun c => { c with frag := v.frag ++ frame.kept }) := by
  obtain ⟨c, hc, hv⟩ := (hs.setFrag (v.frag ++ frame.kept)).conn
  have hfrag : c.frag = v.frag ++ frame.kept := congrArg Hidden.frag hv
  rw [mgWsCb, bind_of_ret hrun, bind_of_ret (keepFragment_run hs (.inr hop)), endFragments,
    if_pos (by simp [hfinal, hop]), bind_of_ret (run_get _), hc]
  simp only [Option.elim, hfrag]

def WsFrame.after (frame : WsFrame) (frag : List UInt8) : List UInt8 :=
  if frame.final then if frame.op = 0 then [] else frag else frag ++ frame.kept

/-- A frame leaves the connection served, with what is then kept of it. -/
theorem mgWsCb_serves [Nlohmann] (h : st.Serves k v) (frame : WsFrame) :
    (∃ s, (mgWsCb k frame).run st = .ret () s ∧
        s.Serves k { v with frag := frame.after v.frag }) ∨
      ∃ f, (mgWsCb k frame).run st = .fault f := by
  rcases wsOp_serves h frame with ⟨s, hrun, hs⟩ | ⟨f, hrun⟩
  · cases hfinal : frame.final with
    | false =>
        refine .inl ⟨_, mgWsCb_fragment hfinal hrun hs, ?_⟩
        rw [WsFrame.after, hfinal]
        exact hs.setFrag _
    | true =>
        by_cases hop : frame.op = 0
        · rw [mgWsCb_last hfinal hop hrun hs, WsFrame.after, hfinal, if_pos rfl, if_pos hop]
          rcases wsMsg_serves (hs.setFrag (v.frag ++ frame.kept))
            (fragMessage (v.frag ++ frame.kept)) with ⟨t, hmsg, ht⟩ | ⟨f, hmsg⟩
          · rw [bind_of_ret hmsg]
            exact .inl ⟨_, rfl, ht.setFrag []⟩
          · rw [bind_of_fault hmsg]
            exact .inr ⟨f, rfl⟩
        · rw [mgWsCb_whole hfinal hop, WsFrame.after, hfinal, if_pos rfl, if_neg hop]
          exact .inl ⟨s, hrun, hs⟩
  · right
    rw [mgWsCb, bind_of_fault hrun]
    exact ⟨f, rfl⟩

end

theorem mgWsCbs_append [Nlohmann] (k : ConnPtr) (frames frames' : List WsFrame) :
    mgWsCbs k (frames ++ frames') = mgWsCbs k frames >>= fun _ => mgWsCbs k frames' := by
  induction frames with
  | nil => rw [mgWsCbs, pure_bind, List.nil_append]
  | cons frame frames ih => rw [List.cons_append, mgWsCbs, mgWsCbs, ih, bind_assoc]

/-! ## The receive buffer -/

namespace Ws

section

variable {r : Recv} {msg : WsMsg}

theorem final_frame : (r.frame msg).final = true ↔ msg.final ≠ 0 := by
  simp [WsFrame.final, Recv.frame, WsMsg.final]

theorem kept_strip (h : r.Holds msg) (hflags : r.rest.head? = some msg.flags) :
    (r.strip msg).kept = r.kept ++ (r.frame msg).kept := by
  have hle := h.le
  have hheader := h.header
  have hop : (r.frame msg).op = msg.op := rfl
  have hdata : (r.frame msg).data = (r.buf.drop (r.ofs + msg.headerLen)).take msg.dataLen := by
    rw [Recv.frame, Recv.rest, List.drop_drop]
  rw [WsFrame.kept, hop, hdata]
  unfold Recv.strip Recv.kept
  by_cases hzero : msg.op = 0
  · have hlen : (r.buf.take r.ofs).length = r.ofs := by
      rw [List.length_take]
      omega
    rw [if_neg (not_not_intro hzero), if_pos hzero, List.nil_append]
    dsimp only
    rw [mgIobufDel_of_le (by omega), List.take_append, hlen, Nat.add_sub_cancel_left,
      List.take_of_length_le (by omega)]
  · have hlen : (r.buf.take (r.ofs + 1)).length = r.ofs + 1 := by
      rw [List.length_take]
      omega
    have hfirst : r.buf.take (r.ofs + 1) = r.buf.take r.ofs ++ [msg.flags] := by
      rw [Recv.rest, List.head?_drop] at hflags
      rw [List.take_add_one, hflags]
      rfl
    have hpos : r.ofs + 1 + (msg.headerLen - 1) = r.ofs + msg.headerLen := by omega
    rw [if_pos hzero, if_neg hzero]
    dsimp only
    rw [mgIobufDel_of_le (by omega), hpos, List.take_append, hlen, Nat.add_sub_cancel_left,
      List.take_of_length_le (by omega), hfirst, List.append_assoc]
    rfl

theorem kept_next (h : r.Holds msg) (hflags : r.rest.head? = some msg.flags) :
    (r.next msg).kept = (r.frame msg).after r.kept := by
  have hle := h.le
  have hop : (r.frame msg).op = msg.op := rfl
  rw [WsFrame.after, hop, ← kept_strip h hflags]
  by_cases hfinal : msg.final ≠ 0
  · rw [if_pos (final_frame.mpr hfinal)]
    by_cases hzero : msg.op = 0
    · rw [Recv.next, if_neg fun h => h.2 hzero, if_pos hfinal, if_pos hzero]
      exact List.take_zero
    · have hlen : (r.buf.take r.ofs).length = r.ofs := by
        rw [List.length_take]
        omega
      rw [Recv.next, if_pos ⟨hfinal, hzero⟩, if_neg hzero]
      unfold Recv.kept
      dsimp only
      rw [mgIobufDel_of_le (by omega), List.take_append, hlen, Nat.sub_self, List.take_zero,
        List.append_nil, List.take_take, Nat.min_self]
  · rw [if_neg fun h => hfinal (final_frame.mp h), Recv.next, if_neg fun h => hfinal h.1,
      if_neg hfinal]

theorem ofs_next_le (h : r.Holds msg) : (r.next msg).ofs ≤ (r.next msg).buf.length := by
  have hle := h.le
  unfold Recv.next
  split
  · dsimp only
    rw [length_mgIobufDel (by omega)]
    omega
  · split
    · exact Nat.zero_le _
    · exact Recv.ofs_strip_le h

variable {st : Server} {k : ConnPtr} {v : Hidden}

/-- The body of the loop does what the frame does. -/
theorem body_run [Nlohmann] (hst : st.Serves k v) (hkept : v.frag = r.kept) (h : r.Holds msg)
    (hflags : r.rest.head? = some msg.flags) :
    (body k r msg).run st = (Mgws.mgWsCb k (r.frame msg)).run st := by
  have hstrip := kept_strip h hflags
  rcases wsOp_serves hst (r.frame msg) with ⟨s, hrun, hs⟩ | ⟨f, hrun⟩
  · by_cases hfinal : msg.final ≠ 0
    · by_cases hop : msg.op = 0
      · have hnext : (r.next msg).kept = [] := by
          rw [Recv.next, if_neg fun h => h.2 hop, if_pos hfinal]
          exact List.take_zero
        rw [mgWsCb_last (final_frame.mpr hfinal) hop hrun hs, body, bind_of_ret hrun,
          if_pos (.inr hop), if_pos ⟨hfinal, hop⟩, hkept, ← hstrip, setPfnData, setPfnData, hnext]
        rfl
      · rw [mgWsCb_whole (final_frame.mpr hfinal) hop, body, bind_of_ret hrun,
          if_neg (by simp [hfinal, hop]), if_neg fun h => hop h.2, hrun]
        rfl
    · have hzero : (r.frame msg).final = false := by
        rw [Bool.eq_false_iff]
        exact fun h => hfinal (final_frame.mp h)
      rw [mgWsCb_fragment hzero hrun hs, body, bind_of_ret hrun,
        if_pos (.inl (not_not.mp hfinal)), if_neg fun h => hfinal h.1, setPfnData, hkept, ← hstrip]
      rfl
  · rw [body, Mgws.mgWsCb, bind_of_fault hrun, bind_of_fault hrun]

/-! ## The loop -/

theorem mgWsCb_of_none [Nlohmann] (h : next r.rest = none) : mgWsCb k r = Pure.pure r := by
  rw [mgWsCb]
  split
  · next hprocess =>
      rw [next, hprocess] at h
      cases h
  · rfl

def Recv.unmasked (r : Recv) (w : Packet) (rest : List UInt8) : Recv :=
  ⟨r.kept ++ (w.header ++ w.data ++ rest), r.ofs⟩

def Packet.wsMsg (w : Packet) : WsMsg := ⟨w.flags, w.header.length, w.data.length⟩

section

variable {w : Packet} {rest : List UInt8}

theorem mgWsCb_of_bytes [Nlohmann] (hw : w.Wf) (h : r.rest = w.bytes ++ rest) :
    mgWsCb k r = (do
      body k (r.unmasked w rest) w.wsMsg
      mgWsCb k ((r.unmasked w rest).next w.wsMsg)) := by
  obtain ⟨n, hn⟩ := Nat.exists_eq_succ_of_ne_zero w.pos_bytes.ne'
  have hprocess := wsProcess_bytes hw rest
  rw [← h, hn] at hprocess
  rw [mgWsCb]
  split
  · next hsome =>
      rw [hprocess] at hsome
      cases hsome
      rfl
  · next hnone => exact absurd hprocess (hnone _ _ _)

theorem length_kept (hofs : r.ofs ≤ r.buf.length) : r.kept.length = r.ofs := by
  rw [Recv.kept, List.length_take, Nat.min_eq_left hofs]

theorem rest_unmasked (hofs : r.ofs ≤ r.buf.length) :
    (r.unmasked w rest).rest = w.header ++ w.data ++ rest :=
  List.drop_left' (length_kept hofs)

theorem kept_unmasked (hofs : r.ofs ≤ r.buf.length) : (r.unmasked w rest).kept = r.kept :=
  List.take_left' (length_kept hofs)

theorem holds_unmasked (hofs : r.ofs ≤ r.buf.length) : (r.unmasked w rest).Holds w.wsMsg := by
  constructor
  · simp only [Recv.unmasked, List.length_append, length_kept hofs, Packet.wsMsg, Nat.add_assoc]
    exact Nat.add_le_add_left (Nat.add_le_add_left (Nat.le_add_right _ _) _) _
  · show 0 < w.header.length
    rw [Packet.length_header]
    omega

theorem frame_unmasked (hofs : r.ofs ≤ r.buf.length) :
    (r.unmasked w rest).frame w.wsMsg = w.frame := by
  rw [Recv.frame, rest_unmasked hofs, Packet.wsMsg, List.append_assoc, List.drop_left,
    List.take_left]
  rfl

theorem rest_next_unmasked (hofs : r.ofs ≤ r.buf.length) :
    ((r.unmasked w rest).next w.wsMsg).rest = rest := by
  rw [Recv.rest_next (holds_unmasked hofs), rest_unmasked hofs, Packet.wsMsg,
    ← List.length_append, List.drop_left]

end

/-- How the loop ends: with the state after `frames` and the bytes `rest` behind what is then
kept, or with the fault that a frame runs into. -/
def Handles [Nlohmann] (st : Server) (k : ConnPtr) (v : Hidden)
    (out : Outcome Server Exn Fault Recv) (frames : List WsFrame) (rest : List UInt8) : Prop :=
  (∃ (r : Recv) (s : Server), out = .ret r s ∧
      (mgWsCbs k frames).run st = .ret () s ∧
      s.Serves k { v with frag := r.kept } ∧ r.ofs ≤ r.buf.length ∧ r.rest = rest) ∨
    ∃ f, out = .fault f ∧ (mgWsCbs k frames).run st = .fault f

/-- The loop of `mg_ws_cb` handles the frames of the buffer one after the other. -/
theorem mgWsCb_handles [Nlohmann] (buf : List UInt8) :
    ∀ (r : Recv) (st : Server) (v : Hidden), r.rest = buf → r.ofs ≤ r.buf.length →
      st.Serves k v → v.frag = r.kept →
      Handles st k v ((mgWsCb k r).run st) (decoder.run buf).1 (decoder.run buf).2 := by
  induction buf using Decoder.run_induction (d := decoder) with
  | hnone buf hnone =>
      intro r st v hbuf hofs hst hkept
      rw [Decoder.run_of_none hnone, mgWsCb_of_none (by rw [hbuf]; exact hnone)]
      refine .inl ⟨r, st, rfl, rfl, ?_, hofs, hbuf⟩
      rwa [← hkept]
  | hsome buf frame n hsome ih =>
      intro r st v hbuf hofs hst hkept
      obtain ⟨w, rest, hw, hbytes, rfl, rfl⟩ := next_eq_some_iff.mp hsome
      have hflags : (r.unmasked w rest).rest.head? = some w.wsMsg.flags := by
        rw [rest_unmasked hofs]
        rfl
      have hbody := body_run hst (hkept.trans (kept_unmasked hofs).symm) (holds_unmasked hofs)
        hflags
      have hkept' : ((r.unmasked w rest).next w.wsMsg).kept = w.frame.after v.frag := by
        rw [kept_next (holds_unmasked hofs) hflags, frame_unmasked hofs, kept_unmasked hofs, hkept]
      rw [frame_unmasked hofs] at hbody
      rw [Decoder.run_of_some hsome, mgWsCb_of_bytes hw (hbuf.trans hbytes)]
      rcases mgWsCb_serves hst w.frame with ⟨s, hrun, hs⟩ | ⟨f, hrun⟩
      · have hdrop : buf.drop w.bytes.length = rest := by rw [hbytes, List.drop_left]
        have hnext := ih ((r.unmasked w rest).next w.wsMsg) s
          { v with frag := w.frame.after v.frag }
          ((rest_next_unmasked hofs).trans hdrop.symm) (ofs_next_le (holds_unmasked hofs)) hs
          hkept'.symm
        rw [bind_of_ret (hbody.trans hrun), Handles, mgWsCbs, bind_of_ret hrun]
        exact hnext
      · right
        refine ⟨f, ?_, ?_⟩
        · rw [bind_of_fault (hbody.trans hrun)]
        · rw [mgWsCbs, bind_of_fault hrun]

/-- The reads on a connection handle the frames of the whole stream. -/
theorem reads_handles [Nlohmann] (pieces : List (List UInt8)) :
    ∀ (r : Recv) (st : Server) (v : Hidden), r.ofs ≤ r.buf.length → st.Serves k v →
      v.frag = r.kept → next r.rest = none →
      Handles st k v ((reads k r pieces).run st) (decoder.run (r.rest ++ pieces.flatten)).1
        (decoder.run (r.rest ++ pieces.flatten)).2 := by
  induction pieces with
  | nil =>
      intro r st v hofs hst hkept hnext
      rw [List.flatten_nil, List.append_nil, Decoder.run_of_none hnext]
      refine .inl ⟨r, st, rfl, rfl, ?_, hofs, rfl⟩
      rwa [← hkept]
  | cons piece pieces ih =>
      intro r st v hofs hst hkept hnext
      have hofs' : r.ofs ≤ (r.buf ++ piece).length := by
        rw [List.length_append]
        omega
      have hrest : (⟨r.buf ++ piece, r.ofs⟩ : Recv).rest = r.rest ++ piece :=
        List.drop_append_of_le_length hofs
      have hkept' : (⟨r.buf ++ piece, r.ofs⟩ : Recv).kept = r.kept :=
        List.take_append_of_le_length hofs
      have hpiece := mgWsCb_handles _ (⟨r.buf ++ piece, r.ofs⟩ : Recv) st v hrest hofs' hst
        (hkept.trans hkept'.symm)
      rw [List.flatten_cons, ← List.append_assoc, Decoder.run_append (r.rest ++ piece), reads,
        List.foldlM_cons]
      rcases hpiece with ⟨r', s, hrun, hframes, hs, hofs'', hrest'⟩ | ⟨f, hrun, hframes⟩
      · have hnone : decoder.next r'.rest = none := hrest' ▸ Decoder.next_rest _
        have hlater := ih r' s _ hofs'' hs rfl hnone
        rw [hrest'] at hlater
        rw [bind_of_ret hrun, Handles, mgWsCbs_append, bind_of_ret hframes]
        exact hlater
      · refine .inr ⟨f, bind_of_fault hrun, ?_⟩
        rw [mgWsCbs_append, bind_of_fault hframes]

end

end Ws

/-! ## Reads as actions -/

section

variable {st s : Server} {k : ConnPtr} {v : Hidden}

structure Hidden.Open (v : Hidden) : Prop where
  listening : v.isListening = false
  tlsHs : v.isTlsHs = false
  pfn : v.pfn = .wsCb

theorem Connection.hidden_open {c : Connection} (hopen : c.isOpen = true) (hpfn : c.pfn = .wsCb) :
    c.hidden.Open := by
  obtain ⟨hlistening, htls⟩ : c.isListening = false ∧ c.isTlsHs = false := by
    simpa [Connection.isOpen] using hopen
  exact ⟨hlistening, htls, hpfn⟩

theorem Hidden.Open.frag (h : v.Open) (frag : List UInt8) :
    Hidden.Open { v with frag := frag } :=
  ⟨h.listening, h.tlsHs, h.pfn⟩

theorem onConn_ws (h : st.Serves k v) (hopen : v.Open) (x : Cpp Unit) :
    (onConn k (fun c => c.isOpen && c.pfn = .wsCb) x).run st = x.run st := by
  obtain ⟨c, hc, rfl⟩ := h.conn
  have htest : (c.isOpen && decide (c.pfn = .wsCb)) = true := by
    have hlistening : c.isListening = false := hopen.listening
    have htls : c.isTlsHs = false := hopen.tlsHs
    have hpfn : c.pfn = .wsCb := hopen.pfn
    simp [Connection.isOpen, hlistening, htls, hpfn]
  rw [onConn, bind_of_ret (run_get st), hc, Option.any_some, if_pos htest]

theorem run_ws_ret [Nlohmann] (hopen : v.Open) {frames : List WsFrame} (h : st.Serves k v)
    (hrun : (mgWsCbs k frames).run st = .ret () s) :
    Transition.run step st (frames.map (.ws k)) = .ok s := by
  induction frames generalizing st v with
  | nil =>
      cases hrun
      rfl
  | cons frame frames ih =>
      rcases mgWsCb_serves h frame with ⟨t, hframe, ht⟩ | ⟨f, hframe⟩
      · rw [mgWsCbs, bind_of_ret hframe] at hrun
        have hstep : step st (.ws k frame) = .ok t := by
          rw [step, perform, onConn_ws h hopen, hframe]
        rw [List.map_cons, Transition.run, hstep]
        exact ih (hopen.frag _) ht hrun
      · rw [mgWsCbs, bind_of_fault hframe] at hrun
        cases hrun

theorem run_ws_fault [Nlohmann] (hopen : v.Open) {frames : List WsFrame} (h : st.Serves k v)
    {f : Fault} (hrun : (mgWsCbs k frames).run st = .fault f) :
    Transition.run step st (frames.map (.ws k)) = .error f := by
  induction frames generalizing st v with
  | nil => cases hrun
  | cons frame frames ih =>
      rcases mgWsCb_serves h frame with ⟨t, hframe, ht⟩ | ⟨g, hframe⟩
      · rw [mgWsCbs, bind_of_ret hframe] at hrun
        have hstep : step st (.ws k frame) = .ok t := by
          rw [step, perform, onConn_ws h hopen, hframe]
        rw [List.map_cons, Transition.run, hstep]
        exact ih (hopen.frag _) ht hrun
      · rw [mgWsCbs, bind_of_fault hframe] at hrun
        cases hrun
        have hstep : step st (.ws k frame) = .error f := by
          rw [step, perform, onConn_ws h hopen, hframe]
        rw [List.map_cons, Transition.run, hstep]

/-- In whatever pieces the bytes of a client arrive, the reads end in the state, or with the
fault, to which the frames of the whole stream lead as actions; what belongs to no complete frame
or message is kept for the next read. -/
theorem reads_run [Nlohmann] {c : Connection} {r : Ws.Recv} (hreach : Reachable st)
    (hc : st.conn? k = some c) (hopen : c.isOpen = true) (hpfn : c.pfn = .wsCb)
    (hfrag : c.frag = r.kept) (hofs : r.ofs ≤ r.buf.length) (hwait : Ws.next r.rest = none)
    (pieces : List (List UInt8)) :
    (∃ (r' : Ws.Recv) (s : Server) (c' : Connection),
        (Ws.reads k r pieces).run st = .ret r' s ∧
        Transition.run step st
          ((Ws.decoder.run (r.rest ++ pieces.flatten)).1.map (.ws k)) = .ok s ∧
        s.conn? k = some c' ∧ c'.frag = r'.kept ∧
        r'.rest = (Ws.decoder.run (r.rest ++ pieces.flatten)).2) ∨
      ∃ f, (Ws.reads k r pieces).run st = .fault f ∧
        Transition.run step st
          ((Ws.decoder.run (r.rest ++ pieces.flatten)).1.map (.ws k)) = .error f := by
  obtain ⟨hwf, hdetached⟩ := reachable_wf hreach
  have hst : st.Serves k c.hidden := ⟨hwf, hdetached, c, hc, rfl⟩
  have hws : c.hidden.Open := c.hidden_open hopen hpfn
  rcases Ws.reads_handles pieces r st c.hidden hofs hst hfrag hwait with
    ⟨r', s, hrun, hframes, hs, -, hrest⟩ | ⟨f, hrun, hframes⟩
  · obtain ⟨c', hc', hv⟩ := hs.conn
    exact .inl ⟨r', s, c', hrun, run_ws_ret hws hst hframes, hc', congrArg Hidden.frag hv, hrest⟩
  · exact .inr ⟨f, hrun, run_ws_fault hws hst hframes⟩

theorem reads_run_ping :
    letI := parserOf "" .null
    ∃ st, Transition.run step initial (joining 2) = .ok st ∧
      ((∃ (r' : Ws.Recv) (s : Server) (c' : Connection),
          (Ws.reads 2 ⟨[], 0⟩ [[137], [128, 1, 2, 3, 4]]).run st = .ret r' s ∧
          Transition.run step st [.ws 2 ⟨137, []⟩] = .ok s ∧
          s.conn? 2 = some c' ∧ c'.frag = r'.kept ∧ r'.rest = []) ∨
        ∃ f, (Ws.reads 2 ⟨[], 0⟩ [[137], [128, 1, 2, 3, 4]]).run st = .fault f ∧
          Transition.run step st [.ws 2 ⟨137, []⟩] = .error f) := by
  let _ := parserOf "" .null
  have hjoined : ∃ st c, Transition.run step initial (joining 2) = .ok st ∧
      st.conn? 2 = some c ∧ c.isOpen = true ∧ c.pfn = .wsCb ∧ c.frag = [] :=
    ⟨_, _, rfl, rfl, rfl, rfl, rfl⟩
  obtain ⟨st, c, hrun, hc, hopen, hpfn, hfrag⟩ := hjoined
  have hdecode : Ws.decoder.run [137, 128, 1, 2, 3, 4] = ([⟨137, []⟩], []) := by
    rw [Decoder.run_of_some (b := ⟨137, []⟩) (n := 6) rfl, Decoder.run_of_none rfl]
    rfl
  have hread := reads_run (Transition.reachable_of_run (joining 2) hrun) hc hopen hpfn
    (r := ⟨[], 0⟩) hfrag (Nat.zero_le _) rfl [[137], [128, 1, 2, 3, 4]]
  have hbytes : (⟨[], 0⟩ : Ws.Recv).rest ++ [[137], [128, 1, 2, 3, 4]].flatten =
      [137, 128, 1, 2, 3, 4] := rfl
  rw [hbytes, hdecode] at hread
  exact ⟨st, hrun, hread⟩

end

end Mgws
