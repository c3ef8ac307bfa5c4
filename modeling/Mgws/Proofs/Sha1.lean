import Mathlib.Tactic.IntervalCases
import Mgws.Sha1
/-!
# SHA-1 is computed

`mg_sha1_transform` does the steps of SHA-1 although it keeps sixteen words of the schedule only,
and in whatever pieces a message is passed to `mg_sha1_update`, `mg_sha1_final` gives its hash.
-/

namespace Mgws.Ws

open Lib Sha1

/-! ## Rounds -/

theorem ch_eq (x y z : UInt32) : (x &&& (y ^^^ z)) ^^^ z = ch x y z := by
  apply UInt32.eq_of_toBitVec_eq
  apply BitVec.eq_of_getLsbD_eq
  intro i hi
  simp only [ch, UInt32.toBitVec_xor, UInt32.toBitVec_and, UInt32.toBitVec_not,
    BitVec.getLsbD_xor, BitVec.getLsbD_and, BitVec.getLsbD_not, decide_eq_true hi, Bool.true_and]
  cases x.toBitVec.getLsbD i <;> cases y.toBitVec.getLsbD i <;> cases z.toBitVec.getLsbD i <;> rfl

theorem maj_eq (x y z : UInt32) : ((x ||| y) &&& z) ||| (x &&& y) = maj x y z := by
  apply UInt32.eq_of_toBitVec_eq
  apply BitVec.eq_of_getLsbD_eq
  intro i hi
  simp only [maj, UInt32.toBitVec_xor, UInt32.toBitVec_and, UInt32.toBitVec_or,
    BitVec.getLsbD_xor, BitVec.getLsbD_and, BitVec.getLsbD_or]
  cases x.toBitVec.getLsbD i <;> cases y.toBitVec.getLsbD i <;> cases z.toBitVec.getLsbD i <;> rfl

theorem sum_eq (z f word k v : UInt32) : z + (f + word + k + v) = v + f + z + k + word := by
  ac_rfl

theorem round_eq (i : Nat) (word : UInt32) (r : Regs) : round i word r = Sha1.step i word r := by
  obtain ⟨v, w, x, y, z⟩ := r
  simp only [round, Sha1.step, mix, constant, Regs.mk.injEq, and_true, true_and]
  refine ⟨?_, rfl⟩
  split
  · rw [sum_eq, ch_eq]
    rfl
  · split
    · rw [sum_eq]
      rfl
    · split
      · rw [sum_eq, maj_eq]
        rfl
      · rw [sum_eq]
        rfl

/-! ## The schedule -/

theorem and_15 (n : Nat) : n &&& 15 = n % 16 := Nat.and_two_pow_sub_one_eq_mod n 4

theorem testBit_word (a b c d : UInt8) (j : Nat) :
    (UInt32.ofNat (ofBytes [a, b, c, d])).toNat.testBit j =
      if j < 8 then d.toNat.testBit j
      else if j - 8 < 8 then c.toNat.testBit (j - 8)
      else if j - 8 - 8 < 8 then b.toNat.testBit (j - 8 - 8)
      else if j - 8 - 8 - 8 < 8 then a.toNat.testBit (j - 8 - 8 - 8)
      else false := by
  have hlt : ofBytes [a, b, c, d] < 2 ^ 32 := by
    have hbytes := ofBytes_lt [a, b, c, d]
    rw [show [a, b, c, d].length = 4 from rfl] at hbytes
    omega
  rw [UInt32.toNat_ofNat', Nat.mod_eq_of_lt hlt, show [a, b, c, d] = [a, b, c] ++ [d] from rfl,
    testBit_ofBytes_concat, show [a, b, c] = [a, b] ++ [c] from rfl, testBit_ofBytes_concat,
    show [a, b] = [a] ++ [b] from rfl, testBit_ofBytes_concat,
    show [a] = [] ++ [a] from rfl, testBit_ofBytes_concat]
  simp [ofBytes]

theorem testBit_mask : ∀ j < 32, (0xFF00FF00 : UInt32).toNat.testBit j = decide (8 ≤ j % 16) ∧
    (0x00FF00FF : UInt32).toNat.testBit j = decide (j % 16 < 8) := by decide

/-- `blk0` turns the bytes of a word around. -/
theorem blk0_eq (a b c d : UInt8) :
    blk0 (UInt32.ofNat (ofBytes [d, c, b, a])) = UInt32.ofNat (ofBytes [a, b, c, d]) := by
  apply UInt32.toNat_inj.mp
  apply Nat.eq_of_testBit_eq
  intro j
  by_cases hj : j < 32
  · obtain ⟨hhigh, hlow⟩ := testBit_mask j hj
    simp only [blk0, rol, UInt32.toNat_or, UInt32.toNat_and, UInt32.toNat_shiftLeft,
      UInt32.toNat_shiftRight, Nat.testBit_or, Nat.testBit_and, Nat.testBit_mod_two_pow,
      Nat.testBit_shiftLeft, Nat.testBit_shiftRight, testBit_word, hhigh, hlow]
    interval_cases j <;> simp
  · have hout : ∀ w : UInt32, w.toNat.testBit j = false := fun w =>
      Nat.testBit_lt_two_pow
        (w.toNat_lt.trans_le (Nat.pow_le_pow_right Nat.two_pos (Nat.not_lt.mp hj)))
    rw [hout, hout]

variable {block : List UInt8} {i : Nat} {words : List UInt32}

theorem schedule_of_lt (h : i < 16) : schedule block i = word block i := by
  rw [schedule, if_pos h]

theorem blk0_le32 (hlen : block.length = 64) (h : i < 16) :
    blk0 (le32 block i) = schedule block i := by
  have hfour : ((block.drop (4 * i)).take 4).length = 4 := by
    rw [List.length_take, List.length_drop]
    omega
  rw [schedule_of_lt h, le32, word]
  match (block.drop (4 * i)).take 4, hfour with
  | [a, b, c, d], _ => exact blk0_eq a b c d

/-- Before round `i` the words of the block are those that later rounds look at; those of the
first rounds still to come are as they were copied. -/
structure Window (block : List UInt8) (i : Nat) (words : List UInt32) : Prop where
  length : words.length = 16
  copied : ∀ t, i ≤ t → t < 16 → words.getD t 0 = le32 block t
  word : ∀ t, t < i → i ≤ t + 16 → words.getD (t % 16) 0 = schedule block t

theorem window_start (block : List UInt8) : Window block 0 ((List.range 16).map (le32 block)) where
  length := rfl
  copied t _ ht := by simp [List.getD_eq_getElem?_getD, ht]
  word t ht _ := absurd ht (Nat.not_lt_zero t)

theorem Window.blk (h : Window block i words) (hi : 16 ≤ i) : blk words i = schedule block i := by
  have h3 : (i + 13) % 16 = (i - 3) % 16 := by omega
  have h8 : (i + 8) % 16 = (i - 8) % 16 := by omega
  have h14 : (i + 2) % 16 = (i - 14) % 16 := by omega
  have h16 : i % 16 = (i - 16) % 16 := by omega
  rw [Ws.blk, and_15, and_15, and_15, and_15, h3, h8, h14, h16, h.word _ (by omega) (by omega),
    h.word _ (by omega) (by omega), h.word _ (by omega) (by omega), h.word _ (by omega) (by omega),
    schedule.eq_1 block i, if_neg (by omega)]
  rfl

theorem Window.set (h : Window block i words) :
    Window block (i + 1) (words.set (i &&& 15) (schedule block i)) where
  length := (List.length_set ..).trans h.length
  copied t ht hlt := by
    have hne : i % 16 ≠ t := by omega
    rw [and_15, List.getD_eq_getElem?_getD, List.getElem?_set_ne hne,
      ← List.getD_eq_getElem?_getD]
    exact h.copied t (by omega) hlt
  word t ht hle := by
    have hlen := h.length
    rw [and_15, List.getD_eq_getElem?_getD, List.getElem?_set]
    split
    · next heq =>
        have hti : t = i := by omega
        rw [if_pos (by omega), hti]
        rfl
    · next hne =>
        have hti : t ≠ i := fun hti => hne (hti ▸ rfl)
        rw [← List.getD_eq_getElem?_getD]
        exact h.word t (by omega) (by omega)

theorem rounds_eq (hlen : block.length = 64) (n : Nat) (h : Window block i words) (r : Regs) :
    rounds n i words r = steps block n i r := by
  induction n generalizing i words r with
  | zero => rfl
  | succ n ih =>
      have hword : (if i < 16 then blk0 (words.getD i 0) else blk words i) = schedule block i := by
        split
        · next hi => rw [h.copied i (Nat.le_refl i) hi, blk0_le32 hlen hi]
        · next hi => exact h.blk (Nat.not_lt.mp hi)
      rw [rounds, hword, steps, round_eq]
      exact ih h.set _

/-- The rounds on sixteen words are the steps of the whole schedule. -/
theorem mgSha1Transform_eq {buffer : List UInt8} (h : buffer.length = 64) (state : Regs) :
    mgSha1Transform state buffer = compress state buffer := by
  rw [mgSha1Transform, rounds_eq h 80 (window_start buffer)]
  rfl

/-! ## Messages -/

/-- What the context holds after a message: the hash of its blocks, the bytes of the last one that
is not complete, and the length of the message in bits. -/
structure Sha1Ctx.Holds (ctx : Sha1Ctx) (msg : List UInt8) : Prop where
  state : ctx.state = (blocks.run msg).1.foldl compress start
  length : ctx.buffer.length = 64
  buffer : ctx.buffer.take (msg.length % 64) = (blocks.run msg).2
  low : ctx.count.1 = 8 * msg.length % 2 ^ 32
  high : ctx.count.2 = 8 * msg.length / 2 ^ 32 % 2 ^ 32

variable {ctx : Sha1Ctx} {msg data : List UInt8}

theorem transforms_eq {turns : Nat} (h : data.length ≤ turns) (state : Regs) :
    transforms turns state data =
      ((blocks.run data).1.foldl compress state, (blocks.run data).2) := by
  induction turns generalizing data state with
  | zero =>
      rw [List.eq_nil_of_length_eq_zero (Nat.le_zero.mp h), Decoder.run_nil]
      rfl
  | succ turns ih =>
      rw [transforms]
      split
      · next hlen =>
          rw [Decoder.run_blocks_of_lt hlen]
          rfl
      · next hlen =>
          have hrest : (data.drop 64).length ≤ turns := by
            rw [List.length_drop]
            omega
          have hblock : (data.take 64).length = 64 := List.length_take_of_le (Nat.not_lt.mp hlen)
          rw [ih hrest, Decoder.run_blocks_of_le (Nat.not_lt.mp hlen), mgSha1Transform_eq hblock]
          rfl

theorem length_copyTo {buffer : List UInt8} {j : Nat} (h : j + data.length ≤ buffer.length) :
    (copyTo buffer j data).length = buffer.length := by
  rw [copyTo, List.length_append, List.length_append, List.length_take, List.length_drop]
  omega

theorem take_copyTo {buffer : List UInt8} {j : Nat} (h : j + data.length ≤ buffer.length) :
    (copyTo buffer j data).take (j + data.length) = buffer.take j ++ data := by
  apply List.take_left'
  rw [List.length_append, List.length_take]
  omega

theorem addCount_eq (m n : Nat) :
    addCount (8 * m % 2 ^ 32, 8 * m / 2 ^ 32 % 2 ^ 32) n =
      (8 * (m + n) % 2 ^ 32, 8 * (m + n) / 2 ^ 32 % 2 ^ 32) := by
  simp only [addCount, Prod.mk.injEq]
  constructor
  · omega
  · split
    · omega
    · omega

/-- What is left of a message fills the front of the buffer; the rest of a block completes it. -/
theorem Sha1Ctx.Holds.update (h : ctx.Holds msg) (data : List UInt8) :
    (mgSha1Update ctx data).Holds (msg ++ data) := by
  have hrest : (blocks.run msg).2.length = msg.length % 64 := Decoder.length_run_blocks msg
  have hrun := Decoder.run_append (d := blocks) msg data
  have hlen := h.length
  have hcount : addCount ctx.count data.length =
      (8 * (msg ++ data).length % 2 ^ 32, 8 * (msg ++ data).length / 2 ^ 32 % 2 ^ 32) := by
    rw [List.length_append, ← addCount_eq, ← h.low, ← h.high]
  have hj : ctx.count.1 / 8 % 64 = msg.length % 64 := by
    rw [h.low]
    omega
  have hmod : (msg ++ data).length % 64 = (msg.length % 64 + data.length) % 64 := by
    rw [List.length_append, Nat.mod_add_mod]
  rw [mgSha1Update]
  dsimp only
  rw [hj, hcount]
  split
  · next hfull =>
      have hroom : msg.length % 64 + (data.take (64 - msg.length % 64)).length ≤
          ctx.buffer.length := by
        rw [List.length_take]
        omega
      have hblock : ((blocks.run msg).2 ++ data).take 64 =
          copyTo ctx.buffer (msg.length % 64) (data.take (64 - msg.length % 64)) := by
        have htake := take_copyTo hroom
        rw [List.take_of_length_le, h.buffer] at htake
        · rw [htake, List.take_append, hrest, List.take_of_length_le (by omega)]
        · rw [length_copyTo hroom, List.length_take]
          omega
      have hafter : ((blocks.run msg).2 ++ data).drop 64 = data.drop (64 - msg.length % 64) := by
        rw [List.drop_append, hrest, List.drop_eq_nil_of_le (by omega), List.nil_append]
      have hfull' : 64 ≤ ((blocks.run msg).2 ++ data).length := by
        rw [List.length_append, hrest]
        omega
      have hturns : (data.drop (64 - msg.length % 64)).length ≤ data.length := by
        rw [List.length_drop]
        omega
      rw [Decoder.run_blocks_of_le hfull', hblock, hafter] at hrun
      have hfilled := (length_copyTo hroom).trans hlen
      rw [transforms_eq hturns, mgSha1Transform_eq hfilled]
      generalize data.drop (64 - msg.length % 64) = after at hrun
      generalize copyTo ctx.buffer (msg.length % 64) (data.take (64 - msg.length % 64)) = buffer
        at hrun hfilled
      have hleft : (msg ++ data).length % 64 = 0 + (blocks.run after).2.length := by
        have hwhole : (blocks.run (msg ++ data)).2.length = (msg ++ data).length % 64 :=
          Decoder.length_run_blocks _
        rw [← hwhole, hrun, Nat.zero_add]
      have hcopied : 0 + (blocks.run after).2.length ≤ buffer.length := by omega
      refine ⟨?_, (length_copyTo hcopied).trans hfilled, ?_, rfl, rfl⟩
      · rw [hrun, List.foldl_append, List.foldl_cons, ← h.state]
      · rw [hrun, hleft, take_copyTo hcopied, List.take_zero, List.nil_append]
  · next hshort =>
      have hshort' : ((blocks.run msg).2 ++ data).length < 64 := by
        rw [List.length_append, hrest]
        omega
      have hroom : msg.length % 64 + data.length ≤ ctx.buffer.length := by omega
      rw [Decoder.run_blocks_of_lt hshort', List.append_nil] at hrun
      refine ⟨?_, (length_copyTo hroom).trans hlen, ?_, rfl, rfl⟩
      · rw [hrun]
        exact h.state
      · rw [hrun, hmod, Nat.mod_eq_of_lt (by omega), take_copyTo hroom, h.buffer]

theorem holds_init {buffer : List UInt8} (h : buffer.length = 64) :
    (mgSha1Init buffer).Holds [] where
  state := by
    rw [Decoder.run_nil]
    rfl
  length := h
  buffer := by
    rw [Decoder.run_nil]
    rfl
  low := rfl
  high := rfl

theorem Sha1Ctx.Holds.updates (h : ctx.Holds msg) (pieces : List (List UInt8)) :
    (pieces.foldl mgSha1Update ctx).Holds (msg ++ pieces.flatten) := by
  induction pieces generalizing ctx msg with
  | nil => rwa [List.flatten_nil, List.append_nil]
  | cons piece pieces ih =>
      rw [List.foldl_cons, List.flatten_cons, ← List.append_assoc]
      exact ih (h.update piece)

/-- The bits of the low word that are looked at count the bytes of the last block. -/
theorem and_504 (n : Nat) : 8 * n % 2 ^ 32 &&& 504 = 8 * (n % 64) := by
  have hlow : 8 * n % 2 ^ 32 = (n % 2 ^ 29) <<< 3 := by
    rw [Nat.shiftLeft_eq]
    omega
  have hmask : (504 : Nat) = 63 <<< 3 := rfl
  have hand : n % 2 ^ 29 &&& 63 = n % 2 ^ 29 % 64 := Nat.and_two_pow_sub_one_eq_mod _ 6
  rw [hlow, hmask, ← Nat.shiftLeft_and_distrib, hand, Nat.shiftLeft_eq]
  omega

theorem Sha1Ctx.Holds.padZeros {turns : Nat} (h : ctx.Holds msg)
    (hturns : (120 - msg.length % 64) % 64 ≤ turns) :
    (padZeros turns ctx).Holds (msg ++ List.replicate ((120 - msg.length % 64) % 64) 0) := by
  induction turns generalizing ctx msg with
  | zero =>
      rw [Nat.le_zero.mp hturns, List.replicate_zero, List.append_nil]
      exact h
  | succ turns ih =>
      rw [Ws.padZeros, h.low, and_504]
      split
      · next hmore =>
          have hnext : (120 - msg.length % 64) % 64 =
              (120 - (msg ++ [0]).length % 64) % 64 + 1 := by
            rw [List.length_append, List.length_singleton]
            omega
          rw [hnext, List.replicate_succ, List.append_cons]
          exact ih (h.update [0]) (by omega)
      · next hdone =>
          have hzero : (120 - msg.length % 64) % 64 = 0 := by omega
          rw [hzero, List.replicate_zero, List.append_nil]
          exact h

/-- `mg_sha1_final` pads the message and gives its hash. -/
theorem Sha1Ctx.Holds.final (h : ctx.Holds msg) : mgSha1Final ctx = digest msg := by
  have hcount : toBytes 4 ctx.count.2 ++ toBytes 4 ctx.count.1 = toBytes 8 (8 * msg.length) := by
    rw [h.high, h.low, toBytes_append 4 4]
    exact congrArg₂ (· ++ ·) (toBytes_mod 4 _) (toBytes_mod 4 _)
  have hzeros : (120 - (msg ++ [128]).length % 64) % 64 = (119 - msg.length % 64) % 64 := by
    rw [List.length_append, List.length_singleton]
    omega
  have hturns : (120 - (msg ++ [128]).length % 64) % 64 ≤ 64 := by omega
  have hpadded := ((h.update [128]).padZeros hturns).update (toBytes 8 (8 * msg.length))
  rw [hzeros, List.append_assoc msg] at hpadded
  rw [mgSha1Final, hcount, digest, ← show _ = pad msg from rfl]
  exact congrArg Regs.bytes hpadded.state

/-- In whatever pieces a message comes, its hash is computed. -/
theorem mgSha1_eq {buffer : List UInt8} (h : buffer.length = 64) (pieces : List (List UInt8)) :
    mgSha1Final (pieces.foldl mgSha1Update (mgSha1Init buffer)) = digest pieces.flatten :=
  ((holds_init h).updates pieces).final

end Mgws.Ws
