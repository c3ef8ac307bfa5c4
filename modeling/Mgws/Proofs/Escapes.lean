import Mgws.Proofs.Paths
/-!
# Escapes in a URI

Which file answers a request depends on what the array for the path held before only if the URI
has a bad escape.  A URI that spells the name of a file, as the links of a listing do, leads to
that file.
-/

namespace Mgws.Http

open Lib Program

variable {text name base uri url area junk junk' x after : List UInt8}

/-! ## Escapes -/

def wellEscaped : List UInt8 → Bool
  | 37 :: a :: b :: s => isx a && isx b && wellEscaped s
  | c :: s => c ≠ 37 && wellEscaped s
  | [] => true

/-- A text that denotes a name, with escapes or without. -/
inductive Spells : List UInt8 → List UInt8 → Prop where
  | nil : Spells [] []
  | plain {c s name} (hc : c ≠ 37) (h : Spells s name) : Spells (c :: s) (c :: name)
  | escape {a b s name} (hhex : (isx a && isx b) = true) (h : Spells s name) :
      Spells (37 :: a :: b :: s) (mgUnhex a b :: name)

theorem Spells.ne_nil (h : Spells text name) (hne : name ≠ []) : text ≠ [] := by
  cases h with
  | nil => exact absurd rfl hne
  | plain => exact List.cons_ne_nil _ _
  | escape => exact List.cons_ne_nil _ _

theorem exists_spells (h : wellEscaped text = true) : ∃ name, Spells text name := by
  induction text using wellEscaped.induct with
  | case1 a b s ih =>
      rw [wellEscaped, Bool.and_eq_true] at h
      obtain ⟨name, hname⟩ := ih h.2
      exact ⟨_, .escape h.1 hname⟩
  | case2 c s hnot ih =>
      rw [wellEscaped] at h
      · rw [Bool.and_eq_true, decide_eq_true_eq] at h
        obtain ⟨name, hname⟩ := ih h.2
        exact ⟨_, .plain h.1 hname⟩
      · exact hnot
  | case3 => exact ⟨[], .nil⟩

theorem mgUrlDecode_end {src dst : List UInt8} (h : src = [] ∨ dst = []) (d : UInt8) :
    (mgUrlDecode false src (d :: dst)).1 = 0 :: dst := by
  rw [mgUrlDecode]
  · rintro a b src' d' dst' rfl rfl
    cases h with
    | inl h => cases h
    | inr h => cases h
  · rintro c src' d' dst' rfl rfl
    cases h with
    | inl h => cases h
    | inr h => cases h

/-- The decoder writes as much of the name as there is room for, and terminates it. -/
theorem Spells.mgUrlDecode (h : Spells text name) (d : UInt8) (dst : List UInt8) :
    ∃ after, (mgUrlDecode false text (d :: dst)).1 = name.take dst.length ++ 0 :: after := by
  induction h generalizing d dst with
  | nil => exact ⟨dst, by rw [mgUrlDecode_end (.inl rfl), List.take_nil, List.nil_append]⟩
  | @plain c s name hc _ ih =>
      cases dst with
      | nil => exact ⟨[], mgUrlDecode_end (.inr rfl) d⟩
      | cons d₂ dst =>
          obtain ⟨after, hafter⟩ := ih d₂ dst
          rw [Http.mgUrlDecode, if_neg hc]
          · exact ⟨after, congrArg (c :: ·) hafter⟩
          · rintro a b s rfl -
            exact hc rfl
  | @escape a b s name hhex _ ih =>
      cases dst with
      | nil => exact ⟨[], mgUrlDecode_end (.inr rfl) d⟩
      | cons d₂ dst =>
          obtain ⟨after, hafter⟩ := ih d₂ dst
          rw [Http.mgUrlDecode, if_pos hhex]
          exact ⟨after, congrArg (mgUnhex a b :: ·) hafter⟩

theorem length_mgUrlDecode (src dst : List UInt8) :
    (mgUrlDecode false src dst).1.length = dst.length := by
  induction src, dst using mgUrlDecode.induct false with
  | case1 a b src d d₂ dst hhex ih => simp [mgUrlDecode, hhex, ih]
  | case2 a b src d d₂ dst hhex => simp [mgUrlDecode, hhex]
  | case3 src d d₂ dst hnot =>
      rw [mgUrlDecode, if_pos rfl]
      exact hnot
  | case4 c src d d₂ dst hnot hc ih =>
      rw [mgUrlDecode, if_neg hc]
      · exact congrArg Nat.succ ih
      · exact hnot
  | case5 src d dst hnot hnot' =>
      rw [mgUrlDecode]
      · rfl
      · exact hnot
      · exact hnot'
  | case6 src => simp [mgUrlDecode]

/-! ## Texts in arrays -/

theorem cstr_cons_congr (c : UInt8) {a b : List UInt8} (h : cstr a = cstr b) :
    cstr (c :: a) = cstr (c :: b) := by
  by_cases hc : c = 0
  · simp [cstr, hc]
  · simp only [cstr] at h ⊢
    rw [List.takeWhile_cons_of_pos (by simpa using hc),
      List.takeWhile_cons_of_pos (by simpa using hc), h]

theorem cstr_eq_self (h : 0 ∉ x) : cstr x = x := by
  have happend := cstr_append h []
  rw [List.append_nil] at happend
  exact happend.trans (List.append_nil x)

theorem cstr_terminated (x after : List UInt8) : cstr (x ++ 0 :: after) = cstr x := by
  induction x with
  | nil => simp [cstr]
  | cons c x ih => exact cstr_cons_congr c ih

/-- A text that ends within the array is not changed by the 0 in its last place. -/
theorem cstr_set_last {a : List UInt8} (h : 0 ∈ a) : cstr (a.set (a.length - 1) 0) = cstr a := by
  induction a with
  | nil => simp at h
  | cons c a ih =>
      cases a with
      | nil =>
          rw [← List.mem_singleton.mp h]
          rfl
      | cons d a =>
          change cstr (c :: (d :: a).set ((d :: a).length - 1) 0) = _
          by_cases hc : c = 0
          · simp [cstr, hc]
          · exact cstr_cons_congr c (ih ((List.mem_cons.mp h).resolve_left (Ne.symm hc)))

theorem length_pathRest : (pathRest uri url area).length = area.length := by
  rw [pathRest]
  split
  · exact length_mgUrlDecode _ _
  · rfl

theorem cstr_pathArray_eq (hroom : base.length < junk.length)
    (hrest : pathRest uri url (0 :: junk.drop (base.length + 1)) = x ++ 0 :: after) :
    cstr (pathArray base uri url junk) = cstr (base ++ x) := by
  have hlen : (base ++ pathRest uri url (0 :: junk.drop (base.length + 1))).length =
      junk.length := by
    rw [List.length_append, length_pathRest, List.length_cons, List.length_drop]
    omega
  rw [pathArray, ← hlen, cstr_set_last (by simp [hrest]), hrest, ← List.append_assoc]
  exact cstr_terminated _ _

/-! ## What the array held before -/

theorem pathRest_eq (h : wellEscaped (uri.drop url.length) = true) (n : Nat) :
    ∃ x, ∀ area : List UInt8, area.length = n →
      ∃ after, pathRest uri url (0 :: area) = x ++ 0 :: after := by
  by_cases hlonger : url.length < uri.length
  · obtain ⟨name, hname⟩ := exists_spells h
    refine ⟨name.take n, ?_⟩
    rintro area rfl
    rw [pathRest, if_pos hlonger]
    exact hname.mgUrlDecode 0 area
  · refine ⟨[], fun area _ => ⟨area, ?_⟩⟩
    rw [pathRest, if_neg hlonger, List.nil_append]

theorem cstr_pathArray_congr (hlen : junk.length = junk'.length)
    (hroom : base.length < junk.length) (h : wellEscaped (uri.drop url.length) = true) :
    cstr (pathArray base uri url junk) = cstr (pathArray base uri url junk') := by
  obtain ⟨x, hx⟩ := pathRest_eq h (junk.length - (base.length + 1))
  obtain ⟨after, hrest⟩ := hx (junk.drop (base.length + 1)) List.length_drop
  obtain ⟨after', hrest'⟩ := hx (junk'.drop (base.length + 1)) (hlen ▸ List.length_drop)
  rw [cstr_pathArray_eq hroom hrest, cstr_pathArray_eq (hlen ▸ hroom) hrest']

theorem uriToPath2_congr {fs : Fs} {dir : List UInt8} (hlen : junk.length = junk'.length)
    (h : wellEscaped (uri.drop url.length) = true) :
    uriToPath2 fs uri url dir junk = uriToPath2 fs uri url dir junk' := by
  rw [uriToPath2, uriToPath2, ← hlen]
  split
  · rfl
  · next hfit =>
      extract_lets path trimmed path' trimmed'
      have hroom : (withSlash dir).length < junk.length :=
        (length_withSlash_le dir).trans_lt (by omega)
      have hpath : path = path' := cstr_pathArray_congr hlen hroom h
      have htrimmed : trimmed = trimmed' := congrArg trimSlashes hpath
      rw [hpath, htrimmed]

/-- A URI without a bad escape is answered in the same way whatever was in the array for the path
before. -/
theorem serveDir_congr (fs : Fs) (rootDir : List UInt8) (hm : HttpMsg)
    (h : wellEscaped (hm.uri.drop (rootOf (cstr rootDir) hm.uri).1.length) = true)
    (hlen : junk.length = junk'.length) :
    serveDir fs rootDir junk hm = serveDir fs rootDir junk' hm := by
  rw [serveDir, serveDir, uriToPath, uriToPath, uriToPath2_congr hlen h, hlen]

theorem serveDir_congr_escape :
    serveDir (oneFile (bytes "www/a") [1]) (bytes "www") (List.replicate 16 120)
        ⟨bytes "GET", bytes "/%61", [], [], [], 0, 0⟩ =
      serveDir (oneFile (bytes "www/a") [1]) (bytes "www") (List.replicate 16 0)
        ⟨bytes "GET", bytes "/%61", [], [], [], 0, 0⟩ :=
  serveDir_congr (oneFile (bytes "www/a") [1]) (bytes "www")
    ⟨bytes "GET", bytes "/%61", [], [], [], 0, 0⟩ (by decide) (by decide)

/-- A bad escape stops the decoder before it terminates the path: what follows is what the array
held before. -/
example :
    serveDir (oneFile (bytes "www/a") [1]) (bytes "www") (List.replicate 16 0)
        ⟨bytes "GET", bytes "/a%", [], [], [], 0, 0⟩ = .file (bytes "www/a") false ⟨200, 0, 1⟩ ∧
      serveDir (oneFile (bytes "www/a") [1]) (bytes "www") (List.replicate 16 120)
        ⟨bytes "GET", bytes "/a%", [], [], [], 0, 0⟩ = .reply 404 := by
  decide

/-! ## Files by their names -/

/-- The name that a URI spells is put behind the root directory. -/
theorem cstr_pathArray_spelled {dir : List UInt8} (h : Spells text name) (hzero : 0 ∉ dir ++ name)
    (hne : name ≠ []) (hfit : dir.length + name.length + 2 < junk.length) :
    cstr (pathArray (withSlash dir) (47 :: text) (bytes "/") junk) = withSlash dir ++ name := by
  rw [List.mem_append, not_or] at hzero
  have hlen := length_withSlash_le dir
  have hroom : (withSlash dir).length < junk.length := by omega
  have harea : name.length ≤ (junk.drop ((withSlash dir).length + 1)).length := by
    rw [List.length_drop]
    omega
  have hlonger : (bytes "/").length < (47 :: text).length :=
    Nat.succ_lt_succ (List.length_pos_iff.mpr (h.ne_nil hne))
  obtain ⟨after, hafter⟩ := h.mgUrlDecode 0 (junk.drop ((withSlash dir).length + 1))
  rw [List.take_of_length_le harea] at hafter
  rw [cstr_pathArray_eq hroom ((if_pos hlonger).trans hafter)]
  exact cstr_eq_self (by simp [zero_not_mem_withSlash hzero.1, hzero.2])

theorem trimSlashes_of_getLast? {path : List UInt8} (h : path.getLast? ≠ some 47) :
    trimSlashes path = path := by
  cases path with
  | nil => rfl
  | cons c s =>
      have hkeep : s.rdropWhile (· = 47) = s := by
        rw [List.rdropWhile_eq_self_iff]
        intro hne hlast
        rw [decide_eq_true_eq] at hlast
        rw [List.getLast?_cons_of_ne_nil hne, List.getLast?_eq_some_getLast hne, hlast] at h
        exact h rfl
      exact congrArg (c :: ·) hkeep

/-- A request whose URI spells the name of a file of the root directory is answered by that
file. -/
theorem serveDir_spelled (fs : Fs) {root : List UInt8} {hm : HttpMsg} {stat : Stat}
    (huri : hm.uri = 47 :: text) (hspells : Spells text name) (hroot : root ≠ [])
    (hcomma : 44 ∉ root) (heq : 61 ∉ root) (hzero : 0 ∉ root ++ name) (hne : name ≠ [])
    (hlast : name.getLast? ≠ some 47) (hsane : mgPathIsSane (withSlash root ++ name) = true)
    (hfit : root.length + name.length + 2 < junk.length)
    (hst : fs.st (withSlash root ++ name) = some stat) (hfile : stat.isDir = false) :
    serveDir fs root junk hm = mgHttpServeFile fs junk.length hm (withSlash root ++ name) := by
  have hcstr : cstr root = root := cstr_eq_self fun h => hzero (List.mem_append_left _ h)
  have hpath := cstr_pathArray_spelled hspells hzero hne hfit
  have htrim : trimSlashes (withSlash root ++ name) = withSlash root ++ name :=
    trimSlashes_of_getLast? (by rwa [List.getLast?_append_of_ne_nil _ hne])
  have hslash : ¬ (47 :: text : List UInt8) = bytes "/" :=
    fun h => hspells.ne_nil hne (List.cons.inj h).2
  have hresolved : uriToPath fs root hm.uri junk =
      .path (withSlash root ++ name) (some false) := by
    have hroom : ¬ junk.length ≤ root.length + 2 := by omega
    rw [uriToPath, hcstr, huri, rootOf_single hroot hcomma heq, uriToPath2, if_neg hroom]
    simp only [hpath, hsane, htrim, hslash, hst, hfile, if_false, Bool.not_true,
      Bool.false_eq_true, Option.map_some]
  rw [serveDir, hresolved]

theorem serveDir_spelled_escape :
    serveDir (oneFile (bytes "www/ab") [1]) (bytes "www") (List.replicate 16 120)
        ⟨bytes "GET", bytes "/a%62", [], [], [], 0, 0⟩ = .file (bytes "www/ab") false ⟨200, 0, 1⟩ :=
  have hspells : Spells (bytes "a%62") (bytes "ab") :=
    .plain (by decide) (.escape (by decide) .nil)
  (serveDir_spelled (oneFile (bytes "www/ab") [1]) rfl hspells (by decide) (by decide)
    (by decide) (by decide) (by decide) (by decide) (by decide) (by decide)
    (show _ = some ⟨false, 1, 0⟩ by decide) rfl).trans (by decide)

/-! ## Links -/

def hexDigit (n : Nat) : UInt8 := (bytes "0123456789abcdef").getD n 0

theorem isx_hexDigit : ∀ n < 16, isx (hexDigit n) = true := by decide

theorem mgUnhexNimble_hexDigit : ∀ n < 16, (mgUnhexNimble (hexDigit n)).toNat = n := by decide

theorem mgUnhex_hexDigit {m n : Nat} (hm : m < 16) (hn : n < 16) :
    mgUnhex (hexDigit m) (hexDigit n) = UInt8.ofNat (16 * m + n) := by
  have hor : m <<< 4 ||| n = 16 * m + n := by
    rw [← Nat.shiftLeft_add_eq_or_of_lt (i := 4) hn, Nat.shiftLeft_eq, Nat.mul_comm]
  rw [mgUnhex, mgUnhexn, List.foldl_cons, List.foldl_cons, List.foldl_nil,
    mgUnhexNimble_hexDigit m hm, mgUnhexNimble_hexDigit n hn, Nat.zero_shiftLeft, Nat.zero_or,
    Nat.mod_eq_of_lt (a := m) (by omega), hor, Nat.mod_eq_of_lt (by omega)]

theorem isx_mgHex (c : UInt8) : ∃ a b, mgHex c = [a, b] ∧ (isx a && isx b) = true ∧
    mgUnhex a b = c := by
  have hhigh : (c >>> 4).toNat = c.toNat / 16 := by
    rw [UInt8.toNat_shiftRight]
    exact Nat.shiftRight_eq_div_pow _ _
  have hlow : (c &&& 0xf).toNat = c.toNat % 16 := by
    rw [UInt8.toNat_and]
    exact Nat.and_two_pow_sub_one_eq_mod c.toNat 4
  have hlt : c.toNat < 256 := c.toNat_lt
  refine ⟨hexDigit (c.toNat / 16), hexDigit (c.toNat % 16), ?_, ?_, ?_⟩
  · rw [mgHex, hhigh, hlow]
    rfl
  · rw [isx_hexDigit _ (by omega), isx_hexDigit _ (by omega), Bool.and_self]
  · rw [mgUnhex_hexDigit (by omega) (by omega), Nat.div_add_mod, UInt8.ofNat_toNat]

/-- What `mg_url_encode` writes spells what it was given. -/
theorem spells_mgUrlEncode {len n : Nat} (h : mgUrlEncode len n name = some text) :
    Spells text name := by
  induction name generalizing n text with
  | nil =>
      cases h
      exact .nil
  | cons c name ih =>
      rw [mgUrlEncode] at h
      split at h
      · cases h
      · split at h
        · next hsafe =>
            obtain ⟨text, htext, rfl⟩ := Option.map_eq_some_iff.mp h
            refine .plain ?_ (ih htext)
            rintro rfl
            cases hsafe
        · obtain ⟨text, htext, rfl⟩ := Option.map_eq_some_iff.mp h
          obtain ⟨a, b, hhex, hisx, hunhex⟩ := isx_mgHex c
          rw [hhex]
          have hspells := Spells.escape hisx (ih htext)
          rwa [hunhex] at hspells

theorem mgUrlEncode_isSome {len n : Nat} (h : n + 3 * name.length + 1 < len) :
    (mgUrlEncode len n name).isSome := by
  induction name generalizing n with
  | nil => rfl
  | cons c name ih =>
      rw [List.length_cons] at h
      rw [mgUrlEncode, if_neg (by omega)]
      split
      · rw [Option.isSome_map]
        exact ih (by omega)
      · rw [Option.isSome_map]
        exact ih (by omega)

theorem spells_entryLink {size : Nat} (h : 3 * name.length + 1 < size) :
    Spells (entryLink size name false) name := by
  obtain ⟨text, htext⟩ := Option.isSome_iff_exists.mp
    (mgUrlEncode_isSome (n := 0) (by omega : 0 + 3 * name.length + 1 < size))
  rw [entryLink, htext]
  exact (List.append_nil text).symm ▸ spells_mgUrlEncode htext

/-- The link that a listing of the root directory has for a file leads to that file. -/
theorem serveDir_link (fs : Fs) {root : List UInt8} {hm : HttpMsg} {stat : Stat}
    (huri : hm.uri = 47 :: entryLink junk.length name false) (hroot : root ≠ [])
    (hcomma : 44 ∉ root) (heq : 61 ∉ root) (hzero : 0 ∉ root ++ name) (hne : name ≠ [])
    (hsep : 47 ∉ name) (hsane : mgPathIsSane (withSlash root ++ name) = true)
    (hfit : root.length + 3 * name.length + 2 < junk.length)
    (hst : fs.st (withSlash root ++ name) = some stat) (hfile : stat.isDir = false) :
    serveDir fs root junk hm = mgHttpServeFile fs junk.length hm (withSlash root ++ name) := by
  have hlast : name.getLast? ≠ some 47 := fun h => hsep (List.mem_of_getLast? h)
  exact serveDir_spelled fs huri (spells_entryLink (by omega)) hroot hcomma heq hzero hne hlast
    hsane (by omega) hst hfile

theorem serveDir_link_percent :
    serveDir (oneFile (bytes "www/5 %") [1]) (bytes "www") (List.replicate 16 120)
        ⟨bytes "GET", 47 :: entryLink 16 (bytes "5 %") false, [], [], [], 0, 0⟩ =
      .file (bytes "www/5 %") false ⟨200, 0, 1⟩ :=
  (serveDir_link (oneFile (bytes "www/5 %") [1]) rfl (by decide) (by decide) (by decide)
    (by decide) (by decide) (by decide) (by decide) (by decide)
    (show _ = some ⟨false, 1, 0⟩ by decide) rfl).trans (by decide)

end Mgws.Http
