import Mathlib.Data.Bool.AllAny
import Mgws.Proofs.Turns
/-!
# Requests as clients write them

A request with a plain head and a body as long as its head says is read back part for part.  A
stream of such requests is never refused, in whichever pieces it arrives.
-/

namespace Mgws.Http

open Lib Program

/-- A request with its target, which the parser cuts at the first question mark. -/
structure Request where
  method : List UInt8
  target : List UInt8
  proto : List UInt8
  headers : List Header
  body : List UInt8

def Header.render (h : Header) : List UInt8 := h.name ++ 58 :: 32 :: (h.value ++ [13, 10])

namespace Request

def head (r : Request) : List UInt8 :=
  r.method ++ 32 :: (r.target ++ 32 :: (r.proto ++ 13 :: 10 ::
    (r.headers.flatMap Header.render ++ [13, 10])))

def render (r : Request) : List UInt8 := r.head ++ r.body

def uri (r : Request) : List UInt8 := r.target.takeWhile (· ≠ 63)

def msg (r : Request) : HttpMsg where
  method := r.method
  uri := r.uri
  query := r.target.drop (r.uri.length + 1)
  proto := r.proto
  headers := r.headers
  headLen := r.head.length
  bodyLen := r.body.length

end Request

def Visible (c : UInt8) : Prop := 32 < c ∧ c < 126

instance : DecidablePred Visible := fun _ => inferInstanceAs (Decidable (_ ∧ _))

structure Header.Plain (h : Header) : Prop where
  name_ne : h.name ≠ []
  name : ∀ c ∈ h.name, Visible c ∧ c ≠ 58
  value : ∀ c ∈ h.value, 32 ≤ c
  value_head : h.value.head? ≠ some 32
  value_last : h.value.getLast? ≠ some 32

/-- The length of the body is the one in the head, or there is none of both. -/
def Request.Framed (r : Request) : Prop :=
  (mgHttpGetHeader r.headers "Content-Length" = some (bytes r.body.length.repr) ∧
      r.head.length + r.body.length < 2 ^ 64) ∨
    (mgHttpGetHeader r.headers "Content-Length" = none ∧ r.body = [] ∧
      sameText (r.head.take 5) "HTTP/" = false ∧ sameText r.method "PUT" = false ∧
      sameText r.method "POST" = false)

structure Request.Plain (r : Request) : Prop where
  method_ne : r.method ≠ []
  method : ∀ c ∈ r.method, Visible c
  uri_ne : r.uri ≠ []
  target : ∀ c ∈ r.target, Visible c
  proto : ∀ c ∈ r.proto, 32 ≤ c
  proto_head : r.proto.head? ≠ some 32
  headers : ∀ h ∈ r.headers, h.Plain
  count : r.headers.length ≤ 30
  framed : r.Framed
  whole : isChunked r.msg = false

section

variable {s text : List UInt8} {c p q : UInt8} {i : Nat}

/-! ## The end of the head -/

theorem isok_of_le (h : 32 ≤ c) : isok c = true := by simp [isok, h]

theorem not_newline_of_le (h : 32 ≤ c) : c ≠ 10 ∧ c ≠ 13 := by
  constructor
  all_goals
    rintro rfl
    exact absurd h (by decide)

theorem Visible.le (h : Visible c) : 32 ≤ c := UInt8.le_of_lt h.1

/-- A line that is not empty does not end the head. -/
theorem requestLenFrom_line (htext : ∀ c ∈ text, 32 ≤ c) (hp : text ≠ [] ∨ 32 ≤ p)
    (s : List UInt8) :
    requestLenFrom i q p (text ++ 13 :: 10 :: s) =
      requestLenFrom (i + text.length + 2) 13 10 s := by
  induction text generalizing i q p with
  | nil =>
      obtain ⟨hp, -⟩ := not_newline_of_le (hp.resolve_left fun h => h rfl)
      simp [requestLenFrom, isok, hp]
  | cons c text ih =>
      obtain ⟨hc, htext⟩ := List.forall_mem_cons.mp htext
      obtain ⟨hne, -⟩ := not_newline_of_le hc
      rw [List.cons_append, requestLenFrom]
      simp only [isok_of_le hc, hne, decide_false, Bool.and_false, Bool.false_and, Bool.or_self,
        Bool.not_true, Bool.false_eq_true, if_false]
      rw [ih htext (.inr hc), List.length_cons]
      congr 1
      omega

theorem requestLenFrom_headers {headers : List Header} (hheaders : ∀ h ∈ headers, h.Plain)
    (hi : 3 ≤ i) (more : List UInt8) :
    requestLenFrom i 13 10 (headers.flatMap Header.render ++ 13 :: 10 :: more) =
      .found (i + (headers.flatMap Header.render).length + 2) := by
  induction headers generalizing i with
  | nil =>
      have hend : 3 < i + 1 := by omega
      simp [requestLenFrom, isok, hend]
  | cons h headers ih =>
      obtain ⟨hh, hheaders⟩ := List.forall_mem_cons.mp hheaders
      have hsplit : (h :: headers).flatMap Header.render ++ 13 :: 10 :: more =
          (h.name ++ 58 :: 32 :: h.value) ++ 13 :: 10 ::
            (headers.flatMap Header.render ++ 13 :: 10 :: more) := by
        simp [Header.render]
      have htext : ∀ c ∈ h.name ++ 58 :: 32 :: h.value, 32 ≤ c := by
        intro c hc
        rcases List.mem_append.mp hc with hc | hc
        · exact (hh.name c hc).1.le
        · simp only [List.mem_cons] at hc
          rcases hc with rfl | rfl | hc
          · decide
          · decide
          · exact hh.value c hc
      rw [hsplit, requestLenFrom_line htext (.inl (by simp)), ih hheaders (by omega)]
      congr 1
      simp only [List.flatMap_cons, List.length_append, List.length_cons, Header.render,
        List.length_nil]
      omega

theorem Request.Plain.requestLen {r : Request} (h : r.Plain) (more : List UInt8) :
    mgHttpGetRequestLen (r.head ++ more) = .found r.head.length := by
  have hsplit : r.head ++ more = (r.method ++ 32 :: (r.target ++ 32 :: r.proto)) ++ 13 :: 10 ::
      (r.headers.flatMap Header.render ++ 13 :: 10 :: more) := by
    simp [Request.head]
  have htext : ∀ c ∈ r.method ++ 32 :: (r.target ++ 32 :: r.proto), 32 ≤ c := by
    intro c hc
    simp only [List.mem_append, List.mem_cons] at hc
    rcases hc with hc | rfl | hc | rfl | hc
    · exact (h.method c hc).le
    · decide
    · exact (h.target c hc).le
    · decide
    · exact h.proto c hc
  have hlong : 3 ≤ 0 + (r.method ++ 32 :: (r.target ++ 32 :: r.proto)).length + 2 := by
    simp only [List.length_append, List.length_cons]
    omega
  rw [mgHttpGetRequestLen, hsplit, requestLenFrom_line htext (.inl (by simp)),
    requestLenFrom_headers h.headers hlong]
  congr 1
  simp only [Request.head, List.length_append, List.length_cons, List.length_nil]
  omega

/-! ## The parts of the head -/

theorem Visible.clen (h : Visible c) : clen c = 1 := by
  simp [Http.clen, h.1, h.2]

theorem word_text {stop : UInt8 → Bool} (htext : ∀ c ∈ text, Visible c ∧ stop c = false)
    (hend : stop c = true ∨ clen c = 0) : word stop 0 (text ++ c :: s) = (text, c :: s) := by
  induction text with
  | nil =>
      have hstop : (stop c || decide (clen c = 0)) = true := by simpa using hend
      simp only [List.nil_append, word, hstop, if_true]
  | cons d text ih =>
      obtain ⟨⟨hd, hstop⟩, htext⟩ := List.forall_mem_cons.mp htext
      have hgo : ¬(stop d || decide (clen d = 0)) = true := by simp [hstop, hd.clen]
      rw [List.cons_append, word, if_neg hgo, hd.clen, ih htext]

theorem skipSpaces_text (htext : text.head? ≠ some 32) (hc : text ≠ [] ∨ c ≠ 32) :
    skipSpaces (32 :: (text ++ c :: s)) = text ++ c :: s := by
  rw [skipSpaces, List.dropWhile_cons_of_pos (by decide)]
  cases text with
  | nil => rw [List.nil_append, List.dropWhile_cons_of_neg (by simpa using hc)]
  | cons d text =>
      have hd : d ≠ 32 := fun h => htext (congrArg some h)
      rw [List.cons_append, List.dropWhile_cons_of_neg (by simpa using hd)]

theorem skiptorn_text (htext : ∀ c ∈ text, 32 ≤ c) (s : List UInt8) :
    skiptorn (text ++ 13 :: 10 :: s) = some (text, s) := by
  have htake : (text ++ 13 :: 10 :: s).takeWhile (fun c => decide (c ≠ 10) && decide (c ≠ 13)) =
      text := by
    rw [List.takeWhile_append_of_pos, List.takeWhile_cons_of_neg (by decide), List.append_nil]
    intro c hc
    obtain ⟨hlf, hcr⟩ := not_newline_of_le (htext c hc)
    simp [hlf, hcr]
  rw [skiptorn]
  simp only [htake, List.drop_left]

theorem head?_ne_of_visible (htext : ∀ c ∈ text, Visible c) : text.head? ≠ some 32 := by
  intro h
  have hmem := List.mem_of_mem_head? h
  exact absurd (htext 32 hmem).1 (by decide)

theorem Request.Plain.requestLine {r : Request} (h : r.Plain) :
    requestLine r.head =
      some (r.method, r.target, r.proto, r.headers.flatMap Header.render ++ [13, 10]) := by
  let rest := r.headers.flatMap Header.render ++ [13, 10]
  have hmethod : word (fun _ => false) 0 r.head =
      (r.method, 32 :: (r.target ++ 32 :: (r.proto ++ 13 :: 10 :: rest))) :=
    word_text (fun c hc => ⟨h.method c hc, rfl⟩) (.inr rfl)
  have htarget_ne : r.target ≠ [] := fun hnil => h.uri_ne (by rw [Request.uri, hnil]; rfl)
  have htarget : word (fun _ => false) 0 (r.target ++ 32 :: (r.proto ++ 13 :: 10 :: rest)) =
      (r.target, 32 :: (r.proto ++ 13 :: 10 :: rest)) :=
    word_text (fun c hc => ⟨h.target c hc, rfl⟩) (.inr rfl)
  have hskip := skipSpaces_text (head?_ne_of_visible h.target) (.inl htarget_ne)
    (s := r.proto ++ 13 :: 10 :: rest) (c := 32)
  have hskip' := skipSpaces_text h.proto_head (.inr (by decide)) (s := 10 :: rest) (c := 13)
  simp only [Http.requestLine, hmethod, hskip, htarget, hskip', skiptorn_text h.proto,
    Option.map_some]
  rfl

theorem trimEnd_of_last (h : text.getLast? ≠ some 32) : trimEnd text = text := by
  rw [trimEnd]
  cases hrev : text.reverse with
  | nil => simpa using hrev.symm
  | cons d rest =>
      have hd : d ≠ 32 := by
        rintro rfl
        rw [List.getLast?_eq_head?_reverse, hrev] at h
        exact h rfl
      rw [List.dropWhile_cons_of_neg (by simpa using hd), ← hrev, List.reverse_reverse]

theorem mgHttpParseHeaders_render {headers : List Header} {n : Nat}
    (hheaders : ∀ h ∈ headers, h.Plain) (hn : headers.length ≤ n) :
    mgHttpParseHeaders n (headers.flatMap Header.render ++ [13, 10]) = some headers := by
  induction headers generalizing n with
  | nil => cases n <;> rfl
  | cons h headers ih =>
      obtain ⟨n, rfl⟩ := Nat.exists_eq_succ_of_ne_zero (Nat.ne_zero_of_lt hn)
      obtain ⟨hh, hheaders⟩ := List.forall_mem_cons.mp hheaders
      let rest := headers.flatMap Header.render ++ [13, 10]
      have hsplit : (h :: headers).flatMap Header.render ++ [13, 10] =
          h.name ++ 58 :: 32 :: (h.value ++ 13 :: 10 :: rest) := by
        simp [Header.render, rest]
      have hname : word (· = 58) 0 (h.name ++ 58 :: 32 :: (h.value ++ 13 :: 10 :: rest)) =
          (h.name, 58 :: 32 :: (h.value ++ 13 :: 10 :: rest)) :=
        word_text (fun c hc => ⟨(hh.name c hc).1, by simpa using (hh.name c hc).2⟩) (.inl rfl)
      have hskip := skipSpaces_text hh.value_head (.inr (by decide)) (s := 10 :: rest) (c := 13)
      obtain ⟨d, name, hd⟩ := List.exists_cons_of_ne_nil hh.name_ne
      obtain ⟨hlf, hcr⟩ := not_newline_of_le (hh.name d (by simp [hd])).1.le
      rw [hsplit, hd, List.cons_append, mgHttpParseHeaders]
      · rw [← List.cons_append, ← hd, hname]
        simp [hh.name_ne, hskip, skiptorn_text hh.value, rest,
          ih hheaders (Nat.le_of_succ_le_succ hn), trimEnd_of_last hh.value_last]
      · exact nofun
      · intro t ht
        exact hlf (List.head_eq_of_cons_eq ht)
      · intro t ht
        exact hcr (List.head_eq_of_cons_eq ht)

/-! ## The length of the body -/

theorem le_ofDigitChars (digits : List Char) (result : Nat) :
    result ≤ Nat.ofDigitChars 10 digits result := by
  induction digits generalizing result with
  | nil => exact Nat.le_refl _
  | cons c digits ih =>
      rw [Nat.ofDigitChars_cons]
      exact Nat.le_trans (by omega) (ih _)

theorem toNat_of_isDigit {c : Char} (h : c.isDigit = true) :
    48 ≤ (UInt8.ofNat c.toNat).toNat ∧ (UInt8.ofNat c.toNat).toNat ≤ 57 ∧
      (UInt8.ofNat c.toNat).toNat = c.toNat := by
  have hrange : 48 ≤ c.toNat ∧ c.toNat ≤ 57 := by
    simpa [Char.isDigit, UInt32.le_iff_toNat_le] using h
  have hbyte : (UInt8.ofNat c.toNat).toNat = c.toNat := by
    rw [UInt8.toNat_ofNat']
    exact Nat.mod_eq_of_lt (by omega)
  omega

theorem sizeDigits_digits {digits : List Char} (hdigits : ∀ c ∈ digits, c.isDigit = true)
    {result ndigits : Nat} (hmax : Nat.ofDigitChars 10 digits result ≤ sizeMax) :
    sizeDigits result ndigits (digits.map fun c => UInt8.ofNat c.toNat) =
      some (Nat.ofDigitChars 10 digits result, ndigits + digits.length, []) := by
  induction digits generalizing result ndigits with
  | nil => rfl
  | cons c digits ih =>
      obtain ⟨hc, hdigits⟩ := List.forall_mem_cons.mp hdigits
      obtain ⟨hlow, hhigh, hbyte⟩ := toNat_of_isDigit hc
      have hdigit : (decide (48 ≤ UInt8.ofNat c.toNat) && decide (UInt8.ofNat c.toNat ≤ 57)) =
          true := by
        have h48 : 48 ≤ UInt8.ofNat c.toNat := UInt8.le_iff_toNat_le.mpr hlow
        have h57 : UInt8.ofNat c.toNat ≤ 57 := UInt8.le_iff_toNat_le.mpr hhigh
        rw [decide_eq_true h48, decide_eq_true h57, Bool.and_self]
      rw [Nat.ofDigitChars_cons] at hmax ⊢
      have hle := Nat.le_trans (le_ofDigitChars digits _) hmax
      have hzero : '0'.toNat = 48 := rfl
      rw [hzero] at hmax hle ⊢
      have hfirst : ¬sizeMax / 10 < result := by omega
      have hsecond : ¬sizeMax - (c.toNat - 48) < result * 10 := by omega
      rw [List.map_cons, sizeDigits, if_pos hdigit, hbyte]
      simp only [if_neg hfirst, if_neg hsecond]
      rw [Nat.mul_comm result 10, ih hdigits hmax, List.length_cons, Nat.add_assoc,
        Nat.add_comm 1]

theorem mgToSizeT_repr {n : Nat} (hn : n ≤ sizeMax) : mgToSizeT (bytes n.repr) = some n := by
  have hdigit : ∀ c ∈ Nat.toDigits 10 n, c.isDigit = true :=
    fun c hc => Nat.isDigit_of_mem_toDigits (by omega) (by omega) hc
  have hvalue : Nat.ofDigitChars 10 (Nat.toDigits 10 n) 0 = n := Nat.ofDigitChars_ten_toDigits
  have hbytes : bytes n.repr = (Nat.toDigits 10 n).map fun c => UInt8.ofNat c.toNat := by
    rw [bytes, Nat.toList_repr]
  have hsize : sizeDigits 0 0 ((Nat.toDigits 10 n).map fun c => UInt8.ofNat c.toNat) = _ :=
    sizeDigits_digits hdigit (by rwa [hvalue])
  obtain ⟨c, cs, hcs⟩ := List.exists_cons_of_ne_nil (Nat.toDigits_ne_nil (n := n) (b := 10))
  obtain ⟨hlow, -, -⟩ := toNat_of_isDigit (hdigit c (by simp [hcs]))
  have hhead : bytes n.repr = UInt8.ofNat c.toNat :: cs.map fun c => UInt8.ofNat c.toNat := by
    rw [hbytes, hcs, List.map_cons]
  have hblank : isBlank (UInt8.ofNat c.toNat) = false := by
    simp only [isBlank, Bool.or_eq_false_iff, decide_eq_false_iff_not]
    constructor
    all_goals
      intro h
      rw [h] at hlow
      exact absurd hlow (by decide)
  have hminus : (bytes n.repr).head? ≠ some 45 := by
    rw [hhead]
    intro h
    rw [Option.some.inj h] at hlow
    exact absurd hlow (by decide)
  have hskip : (bytes n.repr).dropWhile isBlank = bytes n.repr := by
    rw [hhead, List.dropWhile_cons_of_neg (by simp [hblank])]
  rw [hvalue, ← hbytes] at hsize
  simp [mgToSizeT, hskip, hminus, hsize, hcs]

theorem Request.Plain.bodyLength {r : Request} (h : r.Plain) :
    Http.bodyLength r.head.length r.head r.method r.uri r.headers = some r.body.length := by
  have hpos : 0 < r.head.length := by simp [Request.head]
  rcases h.framed with ⟨hlength, hsmall⟩ | ⟨hnone, hbody, hhttp, hput, hpost⟩
  · have hmax : r.body.length < sizeMax := by
      rw [sizeMax]
      omega
    have hne : r.body.length ≠ sizeMax := Nat.ne_of_lt hmax
    have hsum : ¬r.head.length + r.body.length < r.head.length := by omega
    simp only [Http.bodyLength, hlength, mgToSizeT_repr (Nat.le_of_lt hmax), Option.map_some,
      Nat.mod_eq_of_lt hsmall]
    simp [hne, hsum]
  · simp [Http.bodyLength, hnone, hbody, hhttp, hput, hpost]

/-! ## Whole requests -/

theorem Request.Plain.parse {r : Request} (h : r.Plain) (more : List UInt8) :
    mgHttpParse (r.head ++ more) = .found r.msg := by
  rw [mgHttpParse, h.requestLen]
  dsimp only
  rw [List.take_left, parseHead, h.requestLine]
  dsimp only
  have hne : (decide (r.method = []) || decide (r.uri = [])) = false := by
    simp [h.method_ne, h.uri_ne]
  have hbody := h.bodyLength
  rw [Request.uri] at hne hbody
  rw [hne, mgHttpParseHeaders_render h.headers h.count]
  simp only [Bool.false_eq_true, if_false, hbody]
  rfl

/-- A request with its body is delivered as it was written. -/
theorem Request.Plain.turn {r : Request} (h : r.Plain) (beyond : UInt8) (more : List UInt8) :
    ∃ rest, httpTurn false beyond (r.render ++ more) =
      .message r.msg r.body r.render.length rest := by
  have hparse : mgHttpParse (r.render ++ more) = .found r.msg := by
    rw [Request.render, List.append_assoc]
    exact h.parse _
  have hdrop : (r.render ++ more).drop r.msg.headLen = r.body ++ more := by
    rw [Request.render, List.append_assoc]
    exact List.drop_left
  have hbody : HasBody false r.msg ((r.render ++ more).drop r.msg.headLen) r.body
      r.body.length := by
    rw [hdrop]
    exact .plain rfl h.whole rfl more
  obtain ⟨rest, hturn, -⟩ := httpTurn_of_hasBody beyond hparse hbody
  exact ⟨rest, by rw [hturn, Request.render, List.length_append]; rfl⟩

/-- A stream of requests is read as it was written. -/
theorem requests_render {rs : List Request} (hrs : ∀ r ∈ rs, r.Plain) :
    requests.run (rs.flatMap Request.render) = (rs.map fun r => (r.msg, r.body), []) := by
  refine Decoder.run_encode rs fun r hr more => ?_
  obtain ⟨rest, hturn⟩ := (hrs r hr).turn 0 more
  exact requests_next hturn

/-! ## Streams of requests -/

/-- A request of which a part is missing is waited for. -/
theorem Request.Plain.turn_of_short {r : Request} (h : r.Plain) {buf later more : List UInt8}
    (hbuf : buf ++ later = r.render ++ more) (hshort : buf.length < r.render.length)
    (beyond : UInt8) : httpTurn false beyond buf = .more := by
  have hlen : mgHttpGetRequestLen (buf ++ later) = .found r.head.length := by
    rw [hbuf, Request.render, List.append_assoc, h.requestLen]
  have hparse : mgHttpParse (buf ++ later) = .found r.msg := by
    rw [hbuf, Request.render, List.append_assoc, h.parse]
  cases hfront : mgHttpGetRequestLen buf with
  | bad =>
      have hsame : mgHttpGetRequestLen (buf ++ later) = mgHttpGetRequestLen buf :=
        requestLenFrom_append (fun hmore => by
          rw [mgHttpGetRequestLen, hmore] at hfront
          cases hfront) later
      rw [hfront, hlen] at hsame
      cases hsame
  | more => rw [httpTurn, mgHttpParse, hfront]
  | found n =>
      rw [mgHttpParse_append (by simp [hfront])] at hparse
      have hrest : (buf.drop r.msg.headLen).length < r.msg.bodyLen := by
        rw [Request.render, List.length_append] at hshort
        rw [List.length_drop]
        have hle := (mgHttpParse_found hparse).2.1
        simp only [Request.msg] at hle ⊢
        omega
      simp only [httpTurn, hparse, h.whole, Bool.false_eq_true, if_false, if_pos hrest]

theorem turn_of_stream {rs : List Request} (hrs : ∀ r ∈ rs, r.Plain) {buf later : List UInt8}
    (hbuf : buf ++ later = rs.flatMap Request.render) (beyond : UInt8) :
    httpTurn false beyond buf = .more ∨
      ∃ r rs' rest, rs = r :: rs' ∧
        httpTurn false beyond buf = .message r.msg r.body r.render.length rest ∧
        buf.drop r.render.length ++ later = rs'.flatMap Request.render := by
  cases rs with
  | nil =>
      obtain ⟨rfl, -⟩ := List.append_eq_nil_iff.mp hbuf
      exact .inl (httpTurn_nil false beyond)
  | cons r rs =>
      have hr := hrs r List.mem_cons_self
      rw [List.flatMap_cons] at hbuf
      by_cases hlong : r.render.length ≤ buf.length
      · have htake : buf.take r.render.length = r.render := by
          have hsame := congrArg (List.take r.render.length) hbuf
          rwa [List.take_append_of_le_length hlong, List.take_left] at hsame
        have hsplit : r.render ++ buf.drop r.render.length = buf := by
          conv_rhs => rw [← List.take_append_drop r.render.length buf, htake]
        obtain ⟨rest, hturn⟩ := hr.turn beyond (buf.drop r.render.length)
        rw [hsplit] at hturn
        refine .inr ⟨r, rs, rest, rfl, hturn, ?_⟩
        rw [← hsplit, List.append_assoc] at hbuf
        exact List.append_cancel_left hbuf
      · exact .inl (hr.turn_of_short hbuf (Nat.lt_of_not_le hlong) beyond)

theorem httpCbFrom_stream [Nlohmann] {rs : List Request} (hrs : ∀ r ∈ rs, r.Plain)
    {answers : Answers} {beyond : UInt8} {k : ConnPtr} {turns ofs : Nat} {buf later : List UInt8}
    {delivered : List (HttpMsg × List UInt8)} {st t : Server} {done? : Option Done}
    (hbuf : buf.drop ofs ++ later = rs.flatMap Request.render)
    (hturns : (buf.drop ofs).length < turns)
    (hrun : (httpCbFrom answers false beyond k turns ofs buf delivered).run st = .ret done? t) :
    ∃ done rs₁ rs₂, done? = some done ∧ done.failed = false ∧ rs = rs₁ ++ rs₂ ∧
      done.delivered = delivered ++ rs₁.map (fun r => (r.msg, r.body)) ∧
      done.left ++ later = rs₂.flatMap Request.render := by
  induction turns generalizing rs ofs buf delivered st with
  | zero => exact absurd hturns (Nat.not_lt_zero _)
  | succ turns ih =>
      rw [httpCbFrom, bind_of_ret (run_get st)] at hrun
      split at hrun
      · cases hrun
        refine ⟨_, [], rs, rfl, rfl, rfl, (List.append_nil _).symm, ?_⟩
        rw [mgIobufDel_zero]
        exact hbuf
      · next hgo =>
          have hofs : ofs < buf.length := by
            simp only [Bool.or_eq_true, decide_eq_true_eq, not_or] at hgo
            exact Nat.lt_of_not_le hgo.2
          rcases turn_of_stream hrs hbuf beyond with hmore | ⟨r, rs, rest, rfl, hturn, hlater⟩
          · rw [hmore] at hrun
            cases hrun
            refine ⟨_, [], rs, rfl, rfl, rfl, (List.append_nil _).symm, ?_⟩
            rw [mgIobufDel_zero]
            exact hbuf
          · rw [hturn] at hrun
            obtain ⟨_, _, -, hrun⟩ := ret_of_bind hrun
            obtain ⟨_, _, -, hrun⟩ := ret_of_bind hrun
            have hdrop := drop_message hofs hturn
            obtain ⟨hpos, hle, -⟩ := httpTurn_message hturn
            obtain ⟨done, rs₁, rs₂, hdone, hok, rfl, hdelivered, hleft⟩ :=
              ih (fun x hx => hrs x (List.mem_cons_of_mem _ hx)) (by rw [hdrop]; exact hlater)
                (by rw [hdrop, List.length_drop]; omega) hrun
            exact ⟨done, r :: rs₁, rs₂, hdone, hok, rfl, by rw [hdelivered]; simp, hleft⟩

theorem history_stream [Nlohmann] {k : ConnPtr} {w : Decoder.Inlet UInt8 (HttpMsg × List UInt8)}
    (h : History k w) {rs : List Request} (hrs : ∀ r ∈ rs, r.Plain) {later : List UInt8}
    (hw : w.received ++ later = rs.flatMap Request.render) :
    ∃ rs₁ rs₂, rs = rs₁ ++ rs₂ ∧ w.taken = rs₁.map (fun r => (r.msg, r.body)) ∧
      w.buf ++ later = rs₂.flatMap Request.render := by
  induction h generalizing later with
  | start => exact ⟨[], rs, rfl, rfl, hw⟩
  | arrive _ piece ih =>
      rw [List.append_assoc] at hw
      obtain ⟨rs₁, rs₂, hsplit, htaken, hbuf⟩ := ih hw
      exact ⟨rs₁, rs₂, hsplit, htaken, by rwa [List.append_assoc]⟩
  | call _ hrun _ ih =>
      obtain ⟨rs₁, rs₂, rfl, htaken, hbuf⟩ := ih hw
      obtain ⟨done, now, rs₃, hdone, -, rfl, hdelivered, hleft⟩ :=
        httpCbFrom_stream (fun r hr => hrs r (List.mem_append_right _ hr)) hbuf
          (Nat.lt_succ_self _) hrun
      cases hdone
      refine ⟨rs₁ ++ now, rs₃, by simp, ?_, hleft⟩
      rw [htaken, hdelivered, List.nil_append, List.map_append]

/-- While a stream of plain requests arrives, in whichever pieces, `http_cb` finds nothing wrong
and delivers the requests part for part and in their order; once all bytes are there, a call that
ends with no response pending has delivered the last one. -/
theorem history_plain [Nlohmann] {k : ConnPtr} {w : Decoder.Inlet UInt8 (HttpMsg × List UInt8)}
    (h : History k w) {rs : List Request} (hrs : ∀ r ∈ rs, r.Plain) {later : List UInt8}
    (hw : w.received ++ later = rs.flatMap Request.render) (answers : Answers) (beyond : UInt8)
    {st t : Server} {done? : Option Done}
    (hrun : (httpCbRecv answers false beyond k w.buf).run st = .ret done? t) :
    ∃ done, done? = some done ∧ done.failed = false ∧
      w.taken ++ done.delivered <+: rs.map (fun r => (r.msg, r.body)) ∧
      (later = [] → (t.conn? k).any (·.isResp) = false →
        w.taken ++ done.delivered = rs.map fun r => (r.msg, r.body)) := by
  obtain ⟨rs₁, rs₂, rfl, htaken, hbuf⟩ := history_stream h hrs hw
  have hrs₂ : ∀ r ∈ rs₂, r.Plain := fun r hr => hrs r (List.mem_append_right _ hr)
  obtain ⟨done, now, rs₃, rfl, hok, rfl, hdelivered, hleft⟩ :=
    httpCbFrom_stream hrs₂ hbuf (Nat.lt_succ_self _) hrun
  rw [List.nil_append] at hdelivered
  refine ⟨done, rfl, hok, ?_, fun hlater hidle => ?_⟩
  · rw [htaken, hdelivered, List.map_append, List.map_append, ← List.append_assoc]
    exact List.prefix_append _ _
  · obtain ⟨-, -, -, hend⟩ := httpCbFrom_moves w.received w.taken hrun hok
    have hnone : requests.next done.left = none := by
      refine hend.resolve_left fun hbusy => ?_
      rw [hidle] at hbusy
      cases hbusy
    have hnil : rs₃ = [] := by
      cases rs₃ with
      | nil => rfl
      | cons r rs₃ =>
          obtain ⟨rest, hturn⟩ := (hrs₂ r (by simp)).turn 0 (rs₃.flatMap Request.render)
          rw [hlater, List.append_nil, List.flatMap_cons] at hleft
          rw [hleft, requests_next hturn] at hnone
          cases hnone
    rw [htaken, hdelivered, hnil, List.append_nil, List.map_append]

end

/-! ## A request to look at -/

def getIndex : Request where
  method := bytes "GET"
  target := bytes "/"
  proto := bytes "HTTP/1.1"
  headers := [⟨bytes "Host", bytes "x"⟩]
  body := []

theorem getIndex_plain : getIndex.Plain where
  method_ne := by decide
  method := List.all_iff_forall_prop.mp (by decide)
  uri_ne := by decide
  target := List.all_iff_forall_prop.mp (by decide)
  proto := List.all_iff_forall_prop.mp (by decide)
  proto_head := by decide
  headers := by
    intro h hh
    rw [List.mem_singleton.mp hh]
    exact
      { name_ne := by decide
        name := List.all_iff_forall_prop.mp (by decide)
        value := List.all_iff_forall_prop.mp (by decide)
        value_head := by decide
        value_last := by decide }
  count := by decide
  framed := .inr (by decide)
  whole := by decide

theorem history_getIndex [Nlohmann] : History 1 ⟨getIndex.render, getIndex.render, []⟩ := by
  simpa using (History.start.arrive (getIndex.render.take 10)).arrive (getIndex.render.drop 10)

theorem history_plain_getIndex :
    letI := parserOf "" .null
    ∃ done t, (httpCbRecv (fun _ => (.returns, .reply 404)) false 0 1 getIndex.render).run initial =
      .ret (some done) t ∧ done.failed = false ∧ done.delivered = [(getIndex.msg, [])] := by
  let _ := parserOf "" .null
  obtain ⟨done?, t, hrun, hidle⟩ : ∃ done? t,
      (httpCbRecv (fun _ => (.returns, .reply 404)) false 0 1 getIndex.render).run initial =
        .ret done? t ∧ (t.conn? 1).any (·.isResp) = false := ⟨_, _, rfl, rfl⟩
  have hrs : ∀ r ∈ [getIndex], r.Plain := by
    intro r hr
    rw [List.mem_singleton.mp hr]
    exact getIndex_plain
  have hwhole : getIndex.render ++ [] = [getIndex].flatMap Request.render := by simp
  obtain ⟨done, rfl, hok, -, hall⟩ := history_plain history_getIndex hrs hwhole
    (fun _ => (.returns, .reply 404)) 0 hrun
  exact ⟨done, t, hrun, hok, hall rfl hidle⟩

end Mgws.Http
