import Mgws.Files
import Mgws.Lib.Paths
/-!
# The files that are served lie in the root directory

Whatever the URI, the file system and the array for the path hold: the file that is sent and the
directory that is listed lie below the directory that the URI selects.
-/

namespace Mgws.Http

open Lib Program

def posix : Lib.Paths UInt8 := ⟨47, [46], [46, 46]⟩

variable {dir base path tail : List UInt8}

/-! ## The check -/

theorem not_prefix_of_sane {start : Bool} {before after : List UInt8}
    (h : saneFrom start (before ++ 47 :: after) = true) : ¬ [46, 46] <+: after := by
  induction before generalizing start with
  | nil =>
      intro hup
      rw [List.nil_append, saneFrom, List.isPrefixOf_iff_prefix.mpr hup] at h
      simp at h
  | cons c before ih =>
      rw [List.cons_append, saneFrom] at h
      split at h
      · cases h
      · exact ih h

/-- At the start of a path the check looks behind the first character: `..` passes there, so that
it may begin a root directory. -/
example : mgPathIsSane (bytes "../www/a") = true ∧ mgPathIsSane (bytes "a..") = false := by decide

/-- Behind the slash of the root directory, no name of a path that is sane is `..`. -/
theorem extends_of_sane (hlast : base.getLast? = some 47)
    (hnames : posix.names base = posix.names dir) (hhead : base.head? = dir.head?)
    (h : mgPathIsSane (base ++ tail)) :
    posix.Extends dir (base ++ tail) := by
  obtain ⟨front, rfl⟩ := List.getLast?_eq_some_iff.mp hlast
  refine ⟨?_, posix.names tail, ?_, ?_⟩
  · rw [List.head?_append_of_ne_nil _ (by simp), hhead]
  · rw [Paths.names_append_of_getLast? hlast, hnames]
  · intro hup
    obtain ⟨before, after, htail⟩ := Paths.exists_of_mem_names hup
    have hpath : front ++ [47] ++ tail = front ++ before ++ 47 :: ([46, 46] ++ after) := by
      rw [List.append_assoc, List.append_assoc, List.singleton_append]
      exact congrArg (front ++ ·) htail
    rw [mgPathIsSane, hpath] at h
    exact not_prefix_of_sane h (List.prefix_append _ _)

theorem extends_trimSlashes (h : posix.Extends dir path) :
    posix.Extends dir (trimSlashes path) := by
  cases path with
  | nil => exact h
  | cons c s =>
      have hnames : posix.names (c :: s.rdropWhile (· = 47)) = posix.names (c :: s) := by
        have hseps : ∀ c ∈ s.rtakeWhile (· = 47), c = posix.sep := fun c hc =>
          of_decide_eq_true (List.mem_rtakeWhile_imp (p := (· = (47 : UInt8))) hc)
        rw [← Paths.names_append_seps (w := posix) (c :: s.rdropWhile (· = 47)) hseps,
          List.cons_append, List.rdropWhile_append_rtakeWhile]
      exact ⟨h.head, hnames ▸ h.names⟩

/-! ## The array -/

theorem cstr_append (h : 0 ∉ base) (s : List UInt8) : cstr (base ++ s) = base ++ cstr s := by
  apply List.takeWhile_append_of_pos
  intro c hc
  simpa using ne_of_mem_of_not_mem hc h

theorem cstr_pathArray {junk : List UInt8} (h : 0 ∉ base) (hfit : base.length < junk.length)
    (uri url : List UInt8) : ∃ tail, cstr (pathArray base uri url junk) = base ++ tail := by
  rw [pathArray, List.set_append_right _ _ (by omega)]
  exact ⟨_, cstr_append h _⟩

theorem length_withSlash_le (dir : List UInt8) : (withSlash dir).length ≤ dir.length + 1 := by
  rw [withSlash]
  split
  · simp
  · omega

theorem zero_not_mem_withSlash (h : 0 ∉ dir) : 0 ∉ withSlash dir := by
  rw [withSlash]
  split
  · simp [h]
  · exact h

/-- The slash changes neither where the directory is nor whether its path is relative. -/
theorem withSlash_spec (hdir : dir ≠ []) :
    (withSlash dir).getLast? = some 47 ∧ posix.names (withSlash dir) = posix.names dir ∧
      (withSlash dir).head? = dir.head? := by
  by_cases hlast : dir.getLast? = some 47
  · simp [withSlash, hlast]
  · rw [withSlash, if_pos (by simp [hdir, hlast])]
    exact ⟨by simp, Paths.names_concat_sep dir, List.head?_append_of_ne_nil _ hdir⟩

theorem extends_pathArray {junk : List UInt8} (hdir : dir ≠ []) (hzero : 0 ∉ dir)
    (hfit : dir.length + 2 < junk.length) {uri url : List UInt8}
    (h : mgPathIsSane (cstr (pathArray (withSlash dir) uri url junk))) :
    posix.Extends dir (cstr (pathArray (withSlash dir) uri url junk)) := by
  have hroom : (withSlash dir).length < junk.length :=
    (length_withSlash_le dir).trans_lt (by omega)
  obtain ⟨hlast, hnames, hhead⟩ := withSlash_spec hdir
  obtain ⟨tail, htail⟩ := cstr_pathArray (zero_not_mem_withSlash hzero) hroom uri url
  rw [htail] at h ⊢
  exact extends_of_sane hlast hnames hhead h

/-! ## The index -/

theorem up_not_mem_names_take {c : UInt8} {name : List UInt8} (hsep : 47 ∉ c :: name)
    (hc : c ≠ 46) (n : Nat) : posix.up ∉ posix.names ((47 :: c :: name).take n) := by
  cases n with
  | zero => simp
  | succ n =>
      have hcut : posix.sep ∉ (c :: name).take n := fun h => hsep (List.mem_of_mem_take h)
      rw [List.take_succ_cons, show (47 : UInt8) = posix.sep from rfl, Paths.names_sep,
        Paths.names_of_not_mem hcut]
      split
      · simp
      · intro hup
        have htake := List.mem_singleton.mp hup
        cases n with
        | zero => cases htake
        | succ n =>
            rw [List.take_succ_cons] at htake
            exact hc (List.cons.inj htake).1.symm

theorem extends_index (h : posix.Extends dir path) (hne : path ≠ []) {c : UInt8}
    {name : List UInt8} (hsep : 47 ∉ c :: name) (hc : c ≠ 46) (n : Nat) :
    posix.Extends dir (path ++ (47 :: c :: name).take n) := by
  refine h.append hne (fun d hd => ?_) (up_not_mem_names_take hsep hc n)
  cases n with
  | zero => cases hd
  | succ n => exact (Option.some.inj hd).symm

theorem extends_indexOf {fs : Fs} {size : Nat} {p : List UInt8} {stat : Option Bool}
    (h : posix.Extends dir path) (hne : path ≠ []) (hindex : indexOf fs size path = .path p stat) :
    posix.Extends dir p := by
  have hname : ∀ (text : String) c name, bytes text = 47 :: c :: name → 47 ∉ c :: name → c ≠ 46 →
      ∀ n, posix.Extends dir (path ++ (bytes text).take n) := by
    intro text c name htext hsep hc n
    rw [htext]
    exact extends_index h hne hsep hc n
  rw [indexOf] at hindex
  split at hindex
  · cases hindex
    exact hname "/index.html" _ _ rfl (by decide) (by decide) _
  · split at hindex
    · cases hindex
      exact hname "/index.shtml" _ _ rfl (by decide) (by decide) _
    · split at hindex
      · cases hindex
        rw [List.take_append, List.take_of_length_le (Nat.le_add_right _ _), List.take_take]
        exact hname "/index.html.gz" _ _ rfl (by decide) (by decide) _
      · cases hindex
        exact h

/-! ## The URI -/

theorem ne_nil_of_extends (h : posix.Extends dir path) (hdir : dir ≠ []) : path ≠ [] := by
  rintro rfl
  exact hdir (List.head?_eq_none_iff.mp h.head.symm)

theorem extends_uriToPath2 {fs : Fs} {uri url junk p : List UInt8} {stat : Option Bool}
    (hdir : dir ≠ []) (hzero : 0 ∉ dir) (h : uriToPath2 fs uri url dir junk = .path p stat) :
    posix.Extends dir p := by
  rw [uriToPath2] at h
  split at h
  · cases h
  · next hfit =>
      extract_lets path trimmed at h
      split at h
      · cases h
      · next hsane =>
          have hpath : posix.Extends dir path :=
            extends_pathArray hdir hzero (by omega) (by simpa using hsane)
          have htrimmed : posix.Extends dir trimmed := extends_trimSlashes hpath
          split at h
          · rwa [← (Resolved.path.inj h).1]
          · rwa [← (Resolved.path.inj h).1]
          · split at h
            · cases h
            · exact extends_indexOf htrimmed (ne_nil_of_extends htrimmed hdir) h

/-! ## The root directory -/

theorem mem_of_mgCommalist {s k v rest : List UInt8} (h : mgCommalist s = some (k, v, rest)) :
    (∀ c ∈ k, c ∈ s) ∧ (∀ c ∈ v, c ∈ s) ∧ ∀ c ∈ rest, c ∈ s := by
  rw [mgCommalist] at h
  split at h
  · cases h
  · cases h
    have hkv : ∀ c ∈ s.takeWhile (· ≠ 44), c ∈ s := fun c hc =>
      (List.takeWhile_prefix _).subset hc
    exact ⟨fun c hc => hkv c ((List.takeWhile_prefix _).subset hc),
      fun c hc => hkv c (List.mem_of_mem_drop hc), fun c hc => List.mem_of_mem_drop hc⟩

/-- The directory that the URI selects is a part of what was configured. -/
theorem mem_of_rootFrom {uri : List UInt8} {turns : Nat} {s : List UInt8}
    {found : List UInt8 × List UInt8} {c : UInt8} (h : c ∈ (rootFrom uri turns s found).2) :
    c ∈ s ∨ c ∈ found.2 := by
  induction turns generalizing s found with
  | zero => exact .inr h
  | succ turns ih =>
      rw [rootFrom] at h
      split at h
      · exact .inr h
      · next k v rest hsplit =>
          obtain ⟨hk, hv, hrest⟩ := mem_of_mgCommalist hsplit
          by_cases hnil : v = []
          · -- a directory without a prefix is the default, whether the URI begins with `/` or not
            simp only [hnil, if_true, ite_self] at h
            cases ih h with
            | inl hmem => exact .inl (hrest c hmem)
            | inr hmem => exact .inl (hk c hmem)
          · simp only [if_neg hnil] at h
            have hskip : c ∈ (rootFrom uri turns rest found).2 → c ∈ s ∨ c ∈ found.2 :=
              fun hmem => (ih hmem).imp_left (hrest c)
            split at h
            · exact hskip h
            · split at h
              · exact hskip h
              · exact .inl ((ih h).elim (hrest c) (hv c))

theorem zero_not_mem_cstr (a : List UInt8) : 0 ∉ cstr a := fun h => by
  simpa using List.mem_takeWhile_imp h

theorem zero_not_mem_rootOf (rootDir uri : List UInt8) : 0 ∉ (rootOf (cstr rootDir) uri).2 := by
  intro hmem
  cases mem_of_rootFrom hmem with
  | inl hroot => exact zero_not_mem_cstr rootDir hroot
  | inr hnil => simp at hnil

/-- A single directory, as the applications configure it, is selected by every URI. -/
theorem rootOf_single {root : List UInt8} (hne : root ≠ []) (hcomma : 44 ∉ root)
    (heq : 61 ∉ root) (uri : List UInt8) : rootOf root uri = (bytes "/", root) := by
  have hall : ∀ {c : UInt8}, c ∉ root → root.takeWhile (· ≠ c) = root := fun hc =>
    List.takeWhile_eq_self_iff.mpr fun d hd => by simpa using ne_of_mem_of_not_mem hd hc
  have hsplit : mgCommalist root = some (root, [], []) := by
    simp only [mgCommalist, if_neg hne, hall hcomma, hall heq]
    simp
  obtain ⟨turns, hturns⟩ :=
    Nat.exists_eq_succ_of_ne_zero fun h => hne (List.eq_nil_of_length_eq_zero h)
  rw [rootOf, hturns, rootFrom, hsplit]
  simp only [if_true, ite_self]
  cases turns with
  | zero => rfl
  | succ turns => rfl

/-! ## The answer -/

def Answer.path? : Answer → Option (List UInt8)
  | .reply _ => none
  | .list path | .head path _ _ | .file path _ _ => some path

theorem openedPath_cases (fs : Fs) (size : Nat) (hm : HttpMsg) (path : List UInt8) :
    (openedPath fs size hm path).1 = path ∨
      (openedPath fs size hm path).1 = gzPath size path := by
  simp only [openedPath]
  split
  · exact .inr rfl
  · exact .inl rfl

theorem mgHttpServeFile_cases (fs : Fs) (size : Nat) (hm : HttpMsg) (path : List UInt8) :
    (∃ status, mgHttpServeFile fs size hm path = .reply status) ∨
      ∃ p gzip file stat, (p, gzip) = openedPath fs size hm path ∧ fs.op p = some file ∧
        fs.st p = some stat ∧
        ∃ part, part = rangeOf (mgHttpGetHeader hm.headers "Range") stat.size ∧
          (mgHttpServeFile fs size hm path = .head p gzip part ∨
            mgHttpServeFile fs size hm path = .file p gzip part) := by
  rw [mgHttpServeFile]
  split
  next p gzip hopened =>
  split
  · next file stat hop hst =>
      split
      · exact .inl ⟨304, rfl⟩
      · refine .inr ⟨p, gzip, file, stat, hopened.symm, hop, hst, _, rfl, ?_⟩
        extract_lets part
        split
        · exact .inl rfl
        · exact .inr rfl
  · exact .inl ⟨404, rfl⟩

theorem mgHttpServeFile_path? {fs : Fs} {size : Nat} {hm : HttpMsg} {p : List UInt8}
    (h : p ∈ (mgHttpServeFile fs size hm path).path?) : p = path ∨ p = gzPath size path := by
  have hopened := openedPath_cases fs size hm path
  obtain ⟨status, hreply⟩ | ⟨q, gzip, file, stat, hq, -, -, part, -, hhead | hfile⟩ :=
    mgHttpServeFile_cases fs size hm path
  · rw [hreply] at h
    cases h
  · rw [hhead] at h
    rw [← hq] at hopened
    exact Option.some.inj h ▸ hopened
  · rw [hfile] at h
    rw [← hq] at hopened
    exact Option.some.inj h ▸ hopened

/-- The file that is sent for a request and the directory that is listed lie below the directory
that the URI selects, or the file is the compressed one beside such a file. -/
theorem serveDir_inside (fs : Fs) (rootDir junk : List UInt8) (hm : HttpMsg)
    (hroot : (rootOf (cstr rootDir) hm.uri).2 ≠ []) :
    ∀ path ∈ (serveDir fs rootDir junk hm).path?, ∃ p,
      posix.Inside (rootOf (cstr rootDir) hm.uri).2 p ∧
        (path = p ∨ path = gzPath junk.length p) := by
  intro path hpath
  rw [serveDir] at hpath
  cases hresolved : uriToPath fs rootDir hm.uri junk with
  | bad text =>
      rw [hresolved] at hpath
      cases hpath
  | moved =>
      rw [hresolved] at hpath
      cases hpath
  | path p stat =>
      have hinside : posix.Inside (rootOf (cstr rootDir) hm.uri).2 p :=
        (extends_uriToPath2 hroot (zero_not_mem_rootOf rootDir hm.uri) hresolved).inside
      refine ⟨p, hinside, ?_⟩
      rw [hresolved] at hpath
      match stat with
      | some true => exact .inl (Option.some.inj hpath).symm
      | some false => exact mgHttpServeFile_path? hpath
      | none => exact mgHttpServeFile_path? hpath

def oneFile (path file : List UInt8) : Fs where
  st p := if p = path then some ⟨false, file.length, 0⟩ else none
  op p := if p = path then some file else none

theorem serveDir_inside_single :
    (serveDir (oneFile (bytes "www/a") [1]) (bytes "www") (List.replicate 16 120)
        ⟨bytes "GET", bytes "/%61", [], [], [], 0, 0⟩).path? = some (bytes "www/a") ∧
      ∃ p, posix.Inside (bytes "www") p ∧ (bytes "www/a" = p ∨ bytes "www/a" = gzPath 16 p) :=
  ⟨by decide, serveDir_inside (oneFile (bytes "www/a") [1]) (bytes "www") (List.replicate 16 120)
    ⟨bytes "GET", bytes "/%61", [], [], [], 0, 0⟩ (by decide) (bytes "www/a") (by decide)⟩

/-- Without an entry for a URI there is no root directory at all. -/
example : (serveDir (oneFile (bytes "/etc/passwd") [1]) (bytes "/a=www") (List.replicate 16 120)
    ⟨bytes "GET", bytes "/etc/passwd", [], [], [], 0, 0⟩).path? = some (bytes "/etc/passwd") := by
  decide

/-! ## What lies outside -/

variable {fs fs' : Fs}

theorem indexOf_agree {size : Nat} (h : ∀ p, posix.Extends dir p → fs.st p = fs'.st p)
    (hpath : posix.Extends dir path) (hne : path ≠ []) :
    indexOf fs size path = indexOf fs' size path := by
  have hname : ∀ (text : String) c name, bytes text = 47 :: c :: name → 47 ∉ c :: name → c ≠ 46 →
      fs.st (path ++ (bytes text).take (size - path.length - 1)) =
        fs'.st (path ++ (bytes text).take (size - path.length - 1)) := by
    intro text c name htext hsep hc
    rw [htext]
    exact h _ (extends_index hpath hne hsep hc _)
  simp only [indexOf, hname "/index.html" _ _ rfl (by decide) (by decide),
    hname "/index.shtml" _ _ rfl (by decide) (by decide),
    hname "/index.html.gz" _ _ rfl (by decide) (by decide)]

theorem uriToPath2_agree {uri url junk : List UInt8}
    (h : ∀ p, posix.Extends dir p → fs.st p = fs'.st p) (hdir : dir ≠ []) (hzero : 0 ∉ dir) :
    uriToPath2 fs uri url dir junk = uriToPath2 fs' uri url dir junk := by
  rw [uriToPath2, uriToPath2]
  split
  · rfl
  · next hfit =>
      extract_lets path trimmed
      split
      · rfl
      · next hsane =>
          have hpath : posix.Extends dir path :=
            extends_pathArray hdir hzero (by omega) (by simpa using hsane)
          have htrimmed : posix.Extends dir trimmed := extends_trimSlashes hpath
          rw [h trimmed htrimmed, indexOf_agree h htrimmed (ne_nil_of_extends htrimmed hdir)]

theorem mgHttpServeFile_agree {size : Nat} {hm : HttpMsg}
    (h : ∀ p, p = path ∨ p = gzPath size path → fs.st p = fs'.st p ∧ fs.op p = fs'.op p) :
    mgHttpServeFile fs size hm path = mgHttpServeFile fs' size hm path := by
  have hopened : openedPath fs size hm path = openedPath fs' size hm path := by
    rw [openedPath, openedPath, (h _ (.inr rfl)).2]
  have hpath := openedPath_cases fs size hm path
  rw [mgHttpServeFile, mgHttpServeFile, ← hopened]
  split
  · next opened gzip heq =>
      rw [heq] at hpath
      rw [(h opened hpath).1, (h opened hpath).2]

/-- The answer depends on nothing outside the directory that the URI selects: file systems that
agree on what lies in it, and on the compressed files beside, give the same. -/
theorem serveDir_agree (fs fs' : Fs) (rootDir junk : List UInt8) (hm : HttpMsg)
    (hroot : (rootOf (cstr rootDir) hm.uri).2 ≠ [])
    (h : ∀ p, posix.Inside (rootOf (cstr rootDir) hm.uri).2 p →
      ∀ q, q = p ∨ q = gzPath junk.length p → fs.st q = fs'.st q ∧ fs.op q = fs'.op q) :
    serveDir fs rootDir junk hm = serveDir fs' rootDir junk hm := by
  have hzero := zero_not_mem_rootOf rootDir hm.uri
  have hresolved : uriToPath fs rootDir hm.uri junk = uriToPath fs' rootDir hm.uri junk :=
    uriToPath2_agree (fun p hp => (h p hp.inside p (.inl rfl)).1) hroot hzero
  rw [serveDir, serveDir, ← hresolved]
  split
  · rfl
  · rfl
  · rfl
  · next path stat _ hpath =>
      exact mgHttpServeFile_agree (h path (extends_uriToPath2 hroot hzero hpath).inside)

def withTop (fs : Fs) : Fs where
  st p := if p = bytes "/" then some ⟨true, 0, 0⟩ else fs.st p
  op := fs.op

theorem serveDir_agree_top :
    serveDir (oneFile (bytes "www/a") [1]) (bytes "www") (List.replicate 16 120)
        ⟨bytes "GET", bytes "/a", [], [], [], 0, 0⟩ =
      serveDir (withTop (oneFile (bytes "www/a") [1])) (bytes "www") (List.replicate 16 120)
        ⟨bytes "GET", bytes "/a", [], [], [], 0, 0⟩ := by
  have htop : ¬ posix.Inside (bytes "www") (bytes "/") := fun h => absurd (h []) (by decide)
  apply serveDir_agree
  · decide
  · intro p hp q hq
    have hne : q ≠ bytes "/" := by
      rintro rfl
      cases hq with
      | inl hq => exact htop (hq ▸ hp)
      | inr hq =>
          have hlen := congrArg List.length hq
          rw [gzPath, List.length_take, List.length_append] at hlen
          simp [bytes] at hlen
          omega
    exact ⟨(if_neg hne).symm, rfl⟩

end Mgws.Http
