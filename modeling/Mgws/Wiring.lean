import Mgws.Mongoose
import Mgws.Lib.ListWalk
import Mathlib.Data.List.Nodup
/-!
# Who belongs to whom

The part of the server's memory that decides which session a connection leads
to: the order of the connections, the contexts they hold, which of them are
websockets, and which connection each session that exists was made for.  The
server changes it in five ways only.
-/

namespace Mgws

open Lib

structure Wire where
  ptr : ConnPtr
  fnData : Context
  isWebsocket : Bool
  deriving DecidableEq, Repr

def Wire.attached (c : Wire) : Option SessionPtr :=
  if c.isWebsocket then c.fnData.userData else none

def Wire.joined (c : Wire) (k : ConnPtr) (hasKey : Bool) (run : FactoryRun) (p : SessionPtr) :
    Wire :=
  if c.ptr = k then
    { c with
      fnData := if run = .throwsEarly then c.fnData else .session p
      isWebsocket := c.isWebsocket || hasKey }
  else c

theorem Wire.joined_ptr (c : Wire) (k : ConnPtr) (hasKey : Bool) (run : FactoryRun)
    (p : SessionPtr) : (c.joined k hasKey run p).ptr = c.ptr := by
  unfold Wire.joined
  split <;> rfl

@[ext]
structure Wiring where
  conns : List Wire
  detached : Option Wire
  nextid : Nat
  nextSession : SessionPtr
  owner : SessionPtr → Option ConnPtr

theorem Wire.attached_eq_some_iff {c : Wire} {p : SessionPtr} :
    c.attached = some p ↔ c.isWebsocket = true ∧ c.fnData = .session p := by
  cases hws : c.isWebsocket <;> cases hctx : c.fnData <;>
    simp [Wire.attached, Context.userData, hws, hctx]

namespace Wiring

variable (w : Wiring)

def allocated : List Wire := w.conns ++ w.detached.toList

def reached : List SessionPtr := walk Wire.attached w.conns

def Valid (p : SessionPtr) : Prop :=
  ∃ k, w.owner p = some k ∧ ∃ c ∈ w.allocated, c.ptr = k

/-! ## The changes -/

def updateWire (k : ConnPtr) (f : Wire → Wire) : Wiring :=
  { w with
    conns := w.conns.map fun c => if c.ptr = k then f c else c
    detached := w.detached.map fun c => if c.ptr = k then f c else c }

def upgrade (k : ConnPtr) (hasKey : Bool) : Wiring :=
  w.updateWire k fun c => { c with isWebsocket := c.isWebsocket || hasKey }

/-- A constructor stores a new context in the connection at `k`.  The session is
there afterwards when the constructor returns. -/
def attach (k : ConnPtr) (returns : Bool) : Wiring :=
  { w.updateWire k fun c => { c with fnData := .session w.nextSession } with
    nextSession := w.nextSession + 1
    owner := fun q => if returns ∧ q = w.nextSession then some k else w.owner q }

def join (k : ConnPtr) (hasKey : Bool) : FactoryRun → Wiring
  | .returns | .throwsAfter => (w.upgrade k hasKey).attach k true
  | .throwsEarly => w.upgrade k hasKey
  | .throwsLate => (w.upgrade k hasKey).attach k false

def unlink (k : ConnPtr) : Wiring :=
  { w with
    conns := w.conns.filter fun c => c.ptr ≠ k
    detached := w.allocated.find? fun c => c.ptr = k }

def delete (p : SessionPtr) : Wiring :=
  { w with owner := fun q => if q = p then none else w.owner q }

def free : Wiring := { w with detached := none }

def accept : Wiring :=
  { w with
    nextid := w.nextid + 1
    conns := { ptr := w.nextid + 1, fnData := .manager, isWebsocket := false } :: w.conns }

/-! ## Well-formedness -/

/-- Connections are distinct, and a session that exists belongs to the one
connection whose context names it. -/
structure Wf : Prop where
  nodup : (w.allocated.map (·.ptr)).Nodup
  pos : ∀ c ∈ w.allocated, 0 < c.ptr
  bound : ∀ c ∈ w.allocated, c.ptr ≤ w.nextid
  fresh : ∀ c ∈ w.allocated, ∀ p, c.fnData = .session p → p < w.nextSession
  ownerFresh : ∀ p k, w.owner p = some k → p < w.nextSession
  owner : ∀ c ∈ w.allocated, ∀ p k, c.fnData = .session p → w.owner p = some k → k = c.ptr
  inj : ∀ c ∈ w.allocated, ∀ d ∈ w.allocated, ∀ p,
    c.fnData = .session p → d.fnData = .session p → c.ptr = d.ptr

variable {w}

theorem Wf.eq_of_ptr (h : w.Wf) {c d : Wire} (hc : c ∈ w.allocated) (hd : d ∈ w.allocated)
    (hptr : c.ptr = d.ptr) : c = d :=
  List.inj_on_of_nodup_map h.nodup hc hd hptr

theorem Wf.valid_iff (h : w.Wf) {c : Wire} {p : SessionPtr} (hc : c ∈ w.allocated)
    (hctx : c.fnData = .session p) : w.Valid p ↔ w.owner p = some c.ptr := by
  constructor
  · rintro ⟨k, hk, -⟩
    rw [hk, h.owner c hc p k hctx hk]
  · intro hk
    exact ⟨c.ptr, hk, c, hc, rfl⟩

theorem mem_allocated_of_mem_conns {c : Wire} (h : c ∈ w.conns) : c ∈ w.allocated :=
  List.mem_append_left _ h

theorem allocated_updateWire (k : ConnPtr) (f : Wire → Wire) :
    (w.updateWire k f).allocated = w.allocated.map fun c => if c.ptr = k then f c else c := by
  rw [allocated, allocated, List.map_append]
  cases h : w.detached <;> simp [updateWire, h]

theorem ptrs_updateWire {k : ConnPtr} {f : Wire → Wire} (hf : ∀ c, (f c).ptr = c.ptr) :
    (w.updateWire k f).allocated.map (·.ptr) = w.allocated.map (·.ptr) := by
  rw [allocated_updateWire, List.map_map]
  refine List.map_congr_left fun c _ => ?_
  simp only [Function.comp]
  split
  · exact hf c
  · rfl

theorem ptrs_upgrade (k : ConnPtr) (hasKey : Bool) :
    (w.upgrade k hasKey).allocated.map (·.ptr) = w.allocated.map (·.ptr) :=
  ptrs_updateWire (f := fun c => { c with isWebsocket := c.isWebsocket || hasKey }) fun _ => rfl

/-! ## What a request for `/websock` changes -/

variable (w) in
theorem joined_eq {run : FactoryRun} (hrun : run ≠ .throwsEarly) (k : ConnPtr) (hasKey : Bool)
    (cs : List Wire) :
    ((cs.map fun c =>
        if c.ptr = k then { c with isWebsocket := c.isWebsocket || hasKey } else c).map
      fun c => if c.ptr = k then { c with fnData := .session w.nextSession } else c) =
      cs.map fun c => c.joined k hasKey run w.nextSession := by
  rw [List.map_map]
  refine List.map_congr_left fun c _ => ?_
  by_cases hk : c.ptr = k
  · simp [Wire.joined, hk, hrun]
  · simp [Wire.joined, hk]

theorem conns_join (k : ConnPtr) (hasKey : Bool) (run : FactoryRun) :
    (w.join k hasKey run).conns = w.conns.map fun c => c.joined k hasKey run w.nextSession := by
  cases run with
  | throwsEarly => rfl
  | returns | throwsLate | throwsAfter => exact joined_eq w (by decide) k hasKey w.conns

theorem allocated_join (k : ConnPtr) (hasKey : Bool) (run : FactoryRun) :
    (w.join k hasKey run).allocated =
      w.allocated.map fun c => c.joined k hasKey run w.nextSession := by
  have hupgrade := allocated_updateWire (w := w) k fun c =>
    { c with isWebsocket := c.isWebsocket || hasKey }
  have hattach : ∀ returns, ((w.upgrade k hasKey).attach k returns).allocated = (w.allocated.map
      fun c => if c.ptr = k then { c with isWebsocket := c.isWebsocket || hasKey } else c).map
      fun c => if c.ptr = k then { c with fnData := .session w.nextSession } else c := by
    intro returns
    rw [← hupgrade]
    exact allocated_updateWire k _
  cases run with
  | returns | throwsAfter =>
      exact (hattach true).trans (joined_eq w (by decide) k hasKey w.allocated)
  | throwsEarly => exact hupgrade
  | throwsLate => exact (hattach false).trans (joined_eq w (by decide) k hasKey w.allocated)

theorem ptrs_join (k : ConnPtr) (hasKey : Bool) (run : FactoryRun) :
    (w.join k hasKey run).allocated.map (·.ptr) = w.allocated.map (·.ptr) := by
  rw [allocated_join, List.map_map]
  exact List.map_congr_left fun c _ => c.joined_ptr k hasKey run w.nextSession

theorem owner_join (k : ConnPtr) (hasKey : Bool) (run : FactoryRun) (q : SessionPtr) :
    (w.join k hasKey run).owner q =
      if run.made ∧ q = w.nextSession then some k else w.owner q := by
  cases run <;>
    simp [Wiring.join, Wiring.attach, Wiring.upgrade, Wiring.updateWire, FactoryRun.made]

theorem nextid_join (k : ConnPtr) (hasKey : Bool) (run : FactoryRun) :
    (w.join k hasKey run).nextid = w.nextid := by
  cases run <;> rfl

theorem nextSession_join (k : ConnPtr) (hasKey : Bool) (run : FactoryRun) :
    (w.join k hasKey run).nextSession =
      if run = .throwsEarly then w.nextSession else w.nextSession + 1 := by
  cases run <;> rfl

theorem Wf.fnData_joined (h : w.Wf) {c : Wire} {k : ConnPtr} {hasKey : Bool} {run : FactoryRun}
    {p : SessionPtr} (hc : c ∈ w.allocated)
    (hp : (c.joined k hasKey run w.nextSession).fnData = .session p) :
    (c.ptr = k ∧ run ≠ .throwsEarly ∧ p = w.nextSession) ∨
      (c.fnData = .session p ∧ p < w.nextSession) := by
  have hold : c.fnData = .session p → c.fnData = .session p ∧ p < w.nextSession :=
    fun hctx => ⟨hctx, h.fresh c hc p hctx⟩
  by_cases hk : c.ptr = k
  · rw [Wire.joined, if_pos hk] at hp
    by_cases hrun : run = .throwsEarly
    · exact .inr (hold (by simpa [hrun] using hp))
    · have hnew : w.nextSession = p := by simpa [hrun] using hp
      exact .inl ⟨hk, hrun, hnew.symm⟩
  · rw [Wire.joined, if_neg hk] at hp
    exact .inr (hold hp)

/-! ## The changes keep it -/

theorem Wf.join (h : w.Wf) (k : ConnPtr) (hasKey : Bool) (run : FactoryRun) :
    (w.join k hasKey run).Wf := by
  have hmem : ∀ d ∈ (w.join k hasKey run).allocated, ∃ c ∈ w.allocated,
      d = c.joined k hasKey run w.nextSession ∧ d.ptr = c.ptr := by
    intro d hd
    rw [allocated_join] at hd
    obtain ⟨c, hc, rfl⟩ := List.mem_map.mp hd
    exact ⟨c, hc, rfl, c.joined_ptr k hasKey run w.nextSession⟩
  have hnext : w.nextSession ≤ (w.join k hasKey run).nextSession := by
    rw [nextSession_join]
    split
    · exact le_rfl
    · exact Nat.le_succ _
  constructor
  · rw [ptrs_join]
    exact h.nodup
  · intro d hd
    obtain ⟨c, hc, -, hptr⟩ := hmem d hd
    rw [hptr]
    exact h.pos c hc
  · intro d hd
    obtain ⟨c, hc, -, hptr⟩ := hmem d hd
    rw [hptr, nextid_join]
    exact h.bound c hc
  · intro d hd p hp
    obtain ⟨c, hc, rfl, -⟩ := hmem d hd
    rcases h.fnData_joined hc hp with ⟨-, hrun, rfl⟩ | ⟨-, hlt⟩
    · rw [nextSession_join, if_neg hrun]
      exact Nat.lt_succ_self _
    · exact lt_of_lt_of_le hlt hnext
  · intro p k' hk'
    rw [owner_join] at hk'
    split at hk'
    · next hnew =>
        rw [nextSession_join, if_neg (FactoryRun.ne_of_made hnew.1).1, hnew.2]
        exact Nat.lt_succ_self _
    · exact lt_of_lt_of_le (h.ownerFresh p k' hk') hnext
  · intro d hd p k' hp hk'
    obtain ⟨c, hc, rfl, hptr⟩ := hmem d hd
    rw [owner_join] at hk'
    rcases h.fnData_joined hc hp with ⟨hk, -, rfl⟩ | ⟨hctx, hlt⟩
    · split at hk'
      · cases hk'
        rw [hptr, hk]
      · exact absurd (h.ownerFresh _ _ hk') (lt_irrefl _)
    · rw [if_neg fun hnew => hlt.ne hnew.2] at hk'
      rw [hptr]
      exact h.owner c hc p k' hctx hk'
  · intro d hd d' hd' p hp hp'
    obtain ⟨c, hc, rfl, hptr⟩ := hmem d hd
    obtain ⟨c', hc', rfl, hptr'⟩ := hmem d' hd'
    rw [hptr, hptr']
    rcases h.fnData_joined hc hp with ⟨hk, -, hnew⟩ | ⟨hctx, hlt⟩ <;>
      rcases h.fnData_joined hc' hp' with ⟨hk', -, hnew'⟩ | ⟨hctx', hlt'⟩
    · rw [hk, hk']
    · exact absurd hnew hlt'.ne
    · exact absurd hnew' hlt.ne
    · exact h.inj c hc c' hc' p hctx hctx'

theorem Wf.of_subset (h : w.Wf) {w' : Wiring} (hnodup : (w'.allocated.map (·.ptr)).Nodup)
    (hsub : ∀ c ∈ w'.allocated, c ∈ w.allocated) (hnextid : w'.nextid = w.nextid)
    (hnext : w'.nextSession = w.nextSession)
    (howner : ∀ p k, w'.owner p = some k → w.owner p = some k) : w'.Wf where
  nodup := hnodup
  pos c hc := h.pos c (hsub c hc)
  bound c hc := hnextid ▸ h.bound c (hsub c hc)
  fresh c hc p hp := hnext ▸ h.fresh c (hsub c hc) p hp
  ownerFresh p k hk := hnext ▸ h.ownerFresh p k (howner p k hk)
  owner c hc p k hp hk := h.owner c (hsub c hc) p k hp (howner p k hk)
  inj c hc d hd := h.inj c (hsub c hc) d (hsub d hd)

theorem mem_allocated_unlink {k : ConnPtr} {c : Wire} (hc : c ∈ (w.unlink k).allocated) :
    c ∈ w.allocated := by
  rcases List.mem_append.mp hc with hc | hc
  · exact mem_allocated_of_mem_conns (List.mem_filter.mp hc).1
  · exact List.mem_of_find?_eq_some (Option.mem_toList.mp hc)

theorem Wf.unlink (h : w.Wf) (k : ConnPtr) : (w.unlink k).Wf := by
  have hnodup : (w.conns.map (·.ptr)).Nodup := by
    have := h.nodup
    rw [allocated, List.map_append] at this
    exact this.of_append_left
  refine h.of_subset ?_ ?_ rfl rfl fun _ _ hk => hk
  · rw [allocated, List.map_append, List.nodup_append]
    refine ⟨hnodup.sublist (List.filter_sublist.map _), ?_, ?_⟩
    · cases h : (w.unlink k).detached <;> simp
    · intro a ha b hb
      obtain ⟨c, hc, rfl⟩ := List.mem_map.mp ha
      obtain ⟨d, hd, rfl⟩ := List.mem_map.mp hb
      have hck : c.ptr ≠ k := by simpa using (List.mem_filter.mp hc).2
      have hdk : d.ptr = k := by simpa using List.find?_some (Option.mem_toList.mp hd)
      rw [hdk]
      exact hck
  · exact fun c hc => mem_allocated_unlink hc

theorem Wf.delete (h : w.Wf) (p : SessionPtr) : (w.delete p).Wf := by
  refine h.of_subset h.nodup (fun _ hc => hc) rfl rfl fun q k hk => ?_
  simp only [Wiring.delete] at hk
  split at hk
  · cases hk
  · exact hk

theorem Wf.free (h : w.Wf) : w.free.Wf := by
  refine h.of_subset ?_ ?_ rfl rfl fun _ _ hk => hk
  · have := h.nodup
    rw [allocated, List.map_append] at this
    simpa [allocated, Wiring.free] using this.of_append_left
  · intro c hc
    exact mem_allocated_of_mem_conns (by simpa [allocated, Wiring.free] using hc)

theorem Wf.accept (h : w.Wf) : w.accept.Wf := by
  have hmem : ∀ d ∈ w.accept.allocated,
      (d.ptr = w.nextid + 1 ∧ d.fnData = .manager) ∨ d ∈ w.allocated := by
    intro d hd
    rcases List.mem_cons.mp hd with rfl | hd
    · exact .inl ⟨rfl, rfl⟩
    · exact .inr hd
  have hsession : ∀ d ∈ w.accept.allocated, ∀ p, d.fnData = .session p → d ∈ w.allocated := by
    intro d hd p hp
    rcases hmem d hd with ⟨-, hctx⟩ | hd
    · rw [hctx] at hp
      cases hp
    · exact hd
  constructor
  · refine List.nodup_cons.mpr ⟨?_, h.nodup⟩
    intro hin
    obtain ⟨c, hc, hptr⟩ := List.mem_map.mp hin
    have hbound := h.bound c hc
    rw [hptr] at hbound
    exact absurd hbound (Nat.not_succ_le_self _)
  · intro d hd
    rcases hmem d hd with ⟨hptr, -⟩ | hd
    · rw [hptr]
      exact Nat.succ_pos _
    · exact h.pos d hd
  · intro d hd
    rcases hmem d hd with ⟨hptr, -⟩ | hd
    · exact hptr.le
    · exact (h.bound d hd).trans (Nat.le_succ _)
  · exact fun d hd p hp => h.fresh d (hsession d hd p hp) p hp
  · exact h.ownerFresh
  · exact fun d hd p k hp => h.owner d (hsession d hd p hp) p k hp
  · exact fun c hc d hd p hp hp' =>
      h.inj c (hsession c hc p hp) d (hsession d hd p hp') p hp hp'

/-- A pointer that the list still holds stays valid when another connection and
its session go. -/
theorem Wf.valid_leave (h : w.Wf) {c : Wire} {p q : SessionPtr} (hc : c ∈ w.conns)
    (hctx : c.fnData = .session p) (hq : q ∈ ((w.unlink c.ptr).delete p).reached)
    (hvalid : w.Valid q) : ((w.unlink c.ptr).delete p).Valid q := by
  obtain ⟨d, hd, hattached⟩ := mem_walk hq
  obtain ⟨-, hctx'⟩ := Wire.attached_eq_some_iff.mp hattached
  have hmem := mem_allocated_of_mem_conns (List.mem_filter.mp hd).1
  have hne : d.ptr ≠ c.ptr := by simpa using (List.mem_filter.mp hd).2
  have hpq : q ≠ p := by
    rintro rfl
    exact hne (h.inj d hmem c (mem_allocated_of_mem_conns hc) q hctx' hctx)
  refine ⟨d.ptr, ?_, d, mem_allocated_of_mem_conns hd, rfl⟩
  simp only [Wiring.delete, if_neg hpq]
  exact (h.valid_iff hmem hctx').mp hvalid

/-! ## Soundness -/

variable (w) in
def Sound : Prop :=
  ∀ c ∈ w.conns, ∀ p, c.fnData = .session p → w.owner p = some c.ptr

/-- A factory that does not throw leaves no dangling context. -/
theorem Sound.join (h : w.Sound) (hwf : w.Wf) (k : ConnPtr) (hasKey : Bool) {run : FactoryRun}
    (hrun : run ≠ .throwsLate) : (w.join k hasKey run).Sound := by
  intro d hd p hp
  rw [conns_join] at hd
  obtain ⟨c, hc, rfl⟩ := List.mem_map.mp hd
  rw [owner_join, Wire.joined_ptr]
  rcases hwf.fnData_joined (mem_allocated_of_mem_conns hc) hp with ⟨hk, hearly, hnew⟩ | ⟨hctx, hlt⟩
  · have hmade : run.made = true := by
      cases run with
      | returns | throwsAfter => rfl
      | throwsEarly => exact absurd rfl hearly
      | throwsLate => exact absurd rfl hrun
    rw [if_pos ⟨hmade, hnew⟩, hk]
  · rw [if_neg fun hnew => hlt.ne hnew.2]
    exact h c hc p hctx

variable (w) in
def Holds (k : ConnPtr) (ctx : Context) : Prop :=
  ∀ c, w.allocated.find? (fun c => c.ptr = k) = some c →
    c.fnData = ctx ∨ ∃ p, c.fnData = .session p ∧ (w.owner p).isSome

theorem Holds.join {k : ConnPtr} {ctx : Context} (h : w.Holds k ctx) (k' : ConnPtr)
    (hasKey : Bool) {run : FactoryRun} (hrun : run.made = true) :
    (w.join k' hasKey run).Holds k ctx := by
  have howner : ∀ p, (w.owner p).isSome → ((w.join k' hasKey run).owner p).isSome := by
    intro p hp
    rw [owner_join]
    split
    · rfl
    · exact hp
  intro d hd
  rw [allocated_join, List.find?_map] at hd
  simp only [Function.comp_def, Wire.joined_ptr] at hd
  obtain ⟨c, hc, rfl⟩ := Option.map_eq_some_iff.mp hd
  by_cases hk : c.ptr = k'
  · refine .inr ⟨w.nextSession, ?_, ?_⟩
    · rw [Wire.joined, if_pos hk]
      exact if_neg (FactoryRun.ne_of_made hrun).1
    · rw [owner_join, if_pos ⟨hrun, rfl⟩]
      rfl
  · rw [Wire.joined, if_neg hk]
    exact (h c hc).imp_right fun ⟨p, hctx, hp⟩ => ⟨p, hctx, howner p hp⟩

theorem Sound.unlink (h : w.Sound) (k : ConnPtr) : (w.unlink k).Sound :=
  fun c hc => h c (List.mem_filter.mp hc).1

theorem Sound.delete (h : w.Sound) {p : SessionPtr}
    (hp : ∀ c ∈ w.conns, c.fnData ≠ .session p) : (w.delete p).Sound := by
  intro c hc q hq
  have hne : q ≠ p := by
    rintro rfl
    exact hp c hc hq
  simp only [Wiring.delete, if_neg hne]
  exact h c hc q hq

theorem Sound.accept (h : w.Sound) : w.accept.Sound := by
  intro c hc p hp
  rcases List.mem_cons.mp hc with rfl | hc
  · cases hp
  · exact h c hc p hp

theorem Sound.valid (h : w.Sound) {c : Wire} {p : SessionPtr} (hc : c ∈ w.conns)
    (hp : c.fnData = .session p) : w.Valid p :=
  ⟨c.ptr, h c hc p hp, c, mem_allocated_of_mem_conns hc, rfl⟩

end Wiring

end Mgws
