import Mgws.Proofs.Reads
/-!
# Fragmented messages

A message that a client cuts into fragments is handled as if it had come whole, in the place of
its last fragment.
-/

namespace Mgws

open Lib Program

section

variable {st s : Server} {k : ConnPtr} {v : Hidden}

def Server.Sound (st : Server) (k : ConnPtr) : Prop :=
  ∀ c ∈ st.conns, c.ptr = k → ∀ p, c.fnData = .session p → st.Valid p

theorem Server.Sound.of_wiring (h : st.Sound k) (hwiring : s.wiring = st.wiring) :
    s.Sound k := by
  intro c hc hk p hctx
  obtain ⟨d, hd, hwire⟩ := exists_wire_of_wiring_eq hwiring hc
  have hptr : d.ptr = c.ptr := congrArg Wire.ptr hwire
  have hfnData : d.fnData = c.fnData := congrArg Wire.fnData hwire
  rw [valid_congr hwiring]
  exact h d hd (hptr.trans hk) p (hfnData.trans hctx)

theorem wsOp_wiring [Nlohmann] (h : st.Serves k v) {frame : WsFrame}
    (hrun : (wsOp k frame).run st = .ret () s) : s.wiring = st.wiring := by
  have hends := (h.wsOp_runs frame).ends
  rw [hrun] at hends
  exact hends.wiring_eq

theorem continuation_run [Nlohmann] (h : st.Serves k v) (hsound : st.Sound k) {frame : WsFrame}
    (hop : frame.op = 0) : (wsOp k frame).run st = .ret () st := by
  rcases wsOp_continuation st k hop with hrun | ⟨c, p, f, hc, hctx, hp, -⟩
  · exact hrun
  · have hmem := Server.mem_conns_of_conn? h.detached hc
    exact absurd (hsound c hmem (Server.ptr_of_conn? hc) p hctx) hp

/-! ## Hiding more than once -/

theorem Server.hide_hide (st : Server) (k : ConnPtr) (v v' : Hidden) :
    (st.hide k v).hide k v' = st.hide k v' := by
  have hcomp : ∀ c : Connection,
      (fun c : Connection => if c.ptr = k then c.hide v' else c)
          (if c.ptr = k then c.hide v else c) =
        if c.ptr = k then c.hide v' else c := by
    intro c
    have hptr : (c.hide v).ptr = c.ptr := rfl
    by_cases hk : c.ptr = k
    · simp only [if_pos hk, hptr]
      rfl
    · simp only [if_neg hk]
  simp only [hide, updateConn, List.map_map, Option.map_map]
  congr 1
  · exact List.map_congr_left fun c _ => hcomp c
  · cases st.detached with
    | none => rfl
    | some c => exact congrArg some (hcomp c)

theorem Server.Serves.setFrag_eq (h : st.Serves k v) (frag : List UInt8) :
    (st.updateConn k fun c => { c with frag := frag }) = st.hide k { v with frag := frag } := by
  obtain ⟨c, hc, rfl⟩ := h.conn
  exact updateConn_congr h.wf hc rfl

theorem Server.Serves.hide (h : st.Serves k v) (frag : List UInt8) :
    (st.hide k { v with frag := frag }).Serves k { v with frag := frag } := by
  rw [← h.setFrag_eq]
  exact h.setFrag frag

theorem Server.Serves.refrag (h : st.Serves k v) (frag frag' : List UInt8) :
    ((st.hide k { v with frag := frag }).updateConn k fun c => { c with frag := frag' }) =
      st.hide k { v with frag := frag' } := by
  rw [(h.hide frag).setFrag_eq, Server.hide_hide]

theorem Server.Sound.hide (h : st.Sound k) (v : Hidden) : (st.hide k v).Sound k :=
  h.of_wiring (wiring_updateConn fun _ => rfl)

/-! ## A message in fragments -/

/-- A frame that may stand between the first and the last fragment: a continuation that is not the
last one, or a frame that is whole. -/
def WsFrame.Between (frame : WsFrame) : Prop := frame.final = true ↔ frame.op ≠ 0

def others (frames : List WsFrame) : List WsFrame := frames.filter fun frame => frame.op ≠ 0

def continued (frames : List WsFrame) : List UInt8 :=
  (frames.filter fun frame => frame.op = 0).flatMap (·.data)

variable {flags : UInt8} {last : WsFrame}

theorem mgWsCbs_one [Nlohmann] (k : ConnPtr) (frame : WsFrame) :
    mgWsCbs k [frame] = mgWsCb k frame := by
  rw [mgWsCbs]
  exact bind_pure _

theorem mgWsCb_data [Nlohmann] {frame : WsFrame} (hfinal : frame.final = true)
    (hop : frame.op = 1 ∨ frame.op = 2) :
    mgWsCb k frame = mgCall k (.wsMsg (some frame.data)) := by
  rcases hop with hop | hop
  · rw [mgWsCb_whole hfinal (by rw [hop]; decide), wsOp, hop, if_pos hfinal]
    rfl
  · rw [mgWsCb_whole hfinal (by rw [hop]; decide), wsOp, hop, if_pos hfinal]
    rfl

/-- The last fragment, behind what was kept of the others. -/
theorem last_run [Nlohmann] (h : st.Serves k v) (hv : v.frag = []) (hsound : st.Sound k)
    (hlast : last.final = true) (hop : last.op = 0) (first : UInt8) (data : List UInt8) :
    (mgWsCb k last).run (st.hide k { v with frag := first :: data }) =
      (mgCall k (.wsMsg (some (data ++ last.data)))).run st := by
  have hrun := continuation_run (h.hide (first :: data)) (hsound.hide _) hop
  have hkept : last.kept = last.data := by rw [WsFrame.kept, if_pos hop, List.nil_append]
  rw [mgWsCb_last hlast hop hrun (h.hide (first :: data)), h.refrag, hkept]
  have hblind : (mgCall k (.wsMsg (some (data ++ last.data)))).run
      (st.hide k { v with frag := first :: data ++ last.data }) =
      ((mgCall k (.wsMsg (some (data ++ last.data)))).run st).mapState fun s =>
        s.hide k { v with frag := first :: data ++ last.data } :=
    wsMsg_blind k _ st
  rcases wsMsg_serves h (some (data ++ last.data)) with ⟨t, hmsg, ht⟩ | ⟨f, hmsg⟩
  · have hself : t.hide k { v with frag := [] } = t := by
      rw [← hv]
      exact ht.hide_self
    rw [hmsg] at hblind ⊢
    rw [show fragMessage (first :: data ++ last.data) = some (data ++ last.data) from rfl,
      bind_of_ret hblind, setConn, run_modify, ht.refrag, hself]
  · rw [hmsg] at hblind ⊢
    exact bind_of_fault hblind

/-- From the first fragment on. -/
theorem fragments_run [Nlohmann] (hflags : (⟨flags, []⟩ : WsFrame).final = true)
    (hop : (⟨flags, []⟩ : WsFrame).op = 1 ∨ (⟨flags, []⟩ : WsFrame).op = 2)
    (hlast : last.final = true) (hlast' : last.op = 0) {middle : List WsFrame}
    (hmiddle : ∀ frame ∈ middle, frame.Between) :
    ∀ (st : Server) (first : UInt8) (data : List UInt8), st.Serves k v → v.frag = [] →
      st.Sound k →
      (mgWsCbs k (middle ++ [last])).run (st.hide k { v with frag := first :: data }) =
        (mgWsCbs k (others middle ++ [⟨flags, data ++ continued middle ++ last.data⟩])).run st := by
  induction middle with
  | nil =>
      intro st first data h hv hsound
      rw [List.nil_append, mgWsCbs_one, last_run h hv hsound hlast hlast']
      have hwhole : mgWsCb k ⟨flags, data ++ continued [] ++ last.data⟩ =
          mgCall k (.wsMsg (some (data ++ continued [] ++ last.data))) :=
        mgWsCb_data hflags hop
      show _ = (mgWsCbs k [_]).run st
      rw [mgWsCbs_one, hwhole, continued, List.filter_nil, List.flatMap_nil, List.append_nil]
  | cons frame middle ih =>
      intro st first data h hv hsound
      have htail := ih fun frame hframe => hmiddle frame (by simp [hframe])
      have hbetween := hmiddle frame (by simp)
      by_cases hzero : frame.op = 0
      · have hfinal : frame.final = false := by
          rw [Bool.eq_false_iff]
          exact fun h => hbetween.mp h hzero
        have hrun := continuation_run (h.hide (first :: data)) (hsound.hide _) hzero
        have hkept : first :: data ++ frame.kept = first :: (data ++ frame.data) := by
          rw [WsFrame.kept, if_pos hzero]
          rfl
        have hdata : data ++ continued (frame :: middle) ++ last.data =
            data ++ frame.data ++ continued middle ++ last.data := by
          simp [continued, hzero]
        have hothers : others (frame :: middle) = others middle := by simp [others, hzero]
        rw [List.cons_append, mgWsCbs,
          bind_of_ret (mgWsCb_fragment hfinal hrun (h.hide (first :: data))), h.refrag, hkept,
          htail st first (data ++ frame.data) h hv hsound, hdata, hothers]
      · have hdata : continued (frame :: middle) = continued middle := by
          simp [continued, hzero]
        have hothers : others (frame :: middle) = frame :: others middle := by
          simp [others, hzero]
        have hblind : (wsOp k frame).run (st.hide k { v with frag := first :: data }) =
            ((wsOp k frame).run st).mapState fun s => s.hide k { v with frag := first :: data } :=
          wsOp_blind k frame st
        rw [List.cons_append, mgWsCbs, mgWsCb_whole (hbetween.mpr hzero) hzero, hdata, hothers,
          List.cons_append, mgWsCbs, mgWsCb_whole (hbetween.mpr hzero) hzero]
        rcases wsOp_serves h frame with ⟨t, hrun, ht⟩ | ⟨f, hrun⟩
        · rw [hrun] at hblind
          rw [bind_of_ret hblind, bind_of_ret hrun]
          exact htail t first data ht hv (hsound.of_wiring (wsOp_wiring h hrun))
        · rw [hrun] at hblind
          rw [bind_of_fault hblind, bind_of_fault hrun]

theorem mgWsCbs_cases [Nlohmann] (frames : List WsFrame) :
    ∀ (st : Server) (v : Hidden), st.Serves k v →
      (∃ s, (mgWsCbs k frames).run st = .ret () s) ∨ ∃ f, (mgWsCbs k frames).run st = .fault f := by
  induction frames with
  | nil => exact fun st _ _ => .inl ⟨st, rfl⟩
  | cons frame frames ih =>
      intro st v h
      rcases mgWsCb_serves h frame with ⟨s, hrun, hs⟩ | ⟨f, hrun⟩
      · rw [mgWsCbs, bind_of_ret hrun]
        exact ih s _ hs
      · rw [mgWsCbs, bind_of_fault hrun]
        exact .inr ⟨f, rfl⟩

theorem run_ws_congr [Nlohmann] (h : st.Serves k v) (hopen : v.Open) {frames frames' : List WsFrame}
    (heq : (mgWsCbs k frames).run st = (mgWsCbs k frames').run st) :
    Transition.run step st (frames.map (.ws k)) = Transition.run step st (frames'.map (.ws k)) := by
  rcases mgWsCbs_cases frames st v h with ⟨s, hrun⟩ | ⟨f, hrun⟩
  · rw [run_ws_ret hopen h hrun, run_ws_ret hopen h (heq.symm.trans hrun)]
  · rw [run_ws_fault hopen h hrun, run_ws_fault hopen h (heq.symm.trans hrun)]

theorem or_final (flags : UInt8) :
    (flags ||| 128) &&& 128 ≠ 0 ∧ (flags ||| 128) &&& 15 = flags &&& 15 := by
  have hall : ∀ n < 256, (UInt8.ofNat n ||| 128) &&& 128 ≠ 0 ∧
      (UInt8.ofNat n ||| 128) &&& 15 = UInt8.ofNat n &&& 15 := by
    decide +kernel
  have hflags := hall flags.toNat flags.toNat_lt
  rwa [UInt8.ofNat_toNat] at hflags

def joinedFrame (first : WsFrame) (middle : List WsFrame) (last : WsFrame) : WsFrame where
  flags := first.flags ||| 128
  data := first.data ++ continued middle ++ last.data

/-- A message in fragments, with whole frames and control frames in between, is handled as these
frames and then the message in one frame. -/
theorem fragments_whole [Nlohmann] {c : Connection} (hreach : Reachable st)
    (hc : st.conn? k = some c) (hopen : c.isOpen = true) (hpfn : c.pfn = .wsCb)
    (hfrag : c.frag = []) (hctx : ∀ p, c.fnData = .session p → st.Valid p)
    (first : WsFrame) (middle : List WsFrame) (last : WsFrame) (hfirst : first.final = false)
    (hop : first.op = 1 ∨ first.op = 2) (hmiddle : ∀ frame ∈ middle, frame.Between)
    (hlast : last.final = true) (hlast' : last.op = 0) :
    Transition.run step st ((first :: middle ++ [last]).map (.ws k)) =
      Transition.run step st
        ((others middle ++ [joinedFrame first middle last]).map (.ws k)) := by
  obtain ⟨hwf, hdetached⟩ := reachable_wf hreach
  have h : st.Serves k c.hidden := ⟨hwf, hdetached, c, hc, rfl⟩
  have hsound : st.Sound k := by
    intro d hd hk p hd'
    rw [eq_of_conn? hwf hc (List.mem_append_left _ hd) hk] at hd'
    exact hctx p hd'
  have hzero : first.op ≠ 0 := by
    rcases hop with hop | hop <;> rw [hop] <;> decide
  have hrun : (wsOp k first).run st = .ret () st := by
    have hskip : wsOp k first = pure () := by
      rcases hop with hop | hop <;> simp [wsOp, hop, hfirst]
    rw [hskip]
    rfl
  have hkept : c.hidden.frag ++ first.kept = first.flags :: first.data := by
    rw [show c.hidden.frag = [] from hfrag, WsFrame.kept, if_neg hzero]
    rfl
  have hflags := or_final first.flags
  refine run_ws_congr h (c.hidden_open hopen hpfn) ?_
  rw [List.cons_append, mgWsCbs, bind_of_ret (mgWsCb_fragment hfirst hrun h), h.setFrag_eq, hkept]
  refine fragments_run ?_ ?_ hlast hlast' hmiddle st first.flags first.data h hfrag hsound
  · simpa [WsFrame.final] using hflags.1
  · have hsame : (⟨first.flags ||| 128, []⟩ : WsFrame).op = first.op := hflags.2
    rwa [hsame]

theorem fragments_whole_rename :
    letI := parserOf renameText renameMsg
    ∃ st, Transition.run step initial (joining 2) = .ok st ∧
      Transition.run step st [.ws 2 ⟨1, (bytes renameText).take 9⟩, .ws 2 ⟨137, []⟩,
        .ws 2 ⟨128, (bytes renameText).drop 9⟩] =
      Transition.run step st [.ws 2 ⟨137, []⟩, .ws 2 (textFrame renameText)] := by
  let _ := parserOf renameText renameMsg
  have hjoined : ∃ st c, Transition.run step initial (joining 2) = .ok st ∧
      st.conn? 2 = some c ∧ c.isOpen = true ∧ c.pfn = .wsCb ∧ c.frag = [] ∧
      c.fnData = .session 0 ∧ st.Valid 0 :=
    ⟨_, _, rfl, rfl, rfl, rfl, rfl, rfl, _, rfl, rfl⟩
  obtain ⟨st, c, hrun, hc, hopen, hpfn, hfrag, hctx, hvalid⟩ := hjoined
  refine ⟨st, hrun, ?_⟩
  have hbetween : ∀ frame ∈ [(⟨137, []⟩ : WsFrame)], frame.Between := by
    intro frame hframe
    rw [List.mem_singleton.mp hframe]
    exact ⟨fun _ => by decide, fun _ => rfl⟩
  have hwhole := fragments_whole (Transition.reachable_of_run (joining 2) hrun) hc hopen hpfn hfrag
    (fun p hp => by rw [hctx] at hp; cases hp; exact hvalid) ⟨1, (bytes renameText).take 9⟩
    [⟨137, []⟩] ⟨128, (bytes renameText).drop 9⟩ rfl (.inl rfl) hbetween rfl rfl
  have hjoin : joinedFrame ⟨1, (bytes renameText).take 9⟩ [⟨137, []⟩]
      ⟨128, (bytes renameText).drop 9⟩ = textFrame renameText := by
    show (⟨129, (bytes renameText).take 9 ++ [] ++ (bytes renameText).drop 9⟩ : WsFrame) = _
    rw [List.append_nil, List.take_append_drop]
    rfl
  rw [hjoin] at hwhole
  exact hwhole

end

end Mgws
