import Neufbox.Ead.TinySha

/-! # The hash of the password protocol, in pieces

`SHA1Init`, `SHA1Update` and `SHA1Final` of `package/ead/src/tinysrp/t_sha.c`. A context keeps the chained
words, the length in bits in two words, and a buffer of 64 bytes of which the first wait. Whatever the
pieces, the digest is the secure hash of what they make up. -/
namespace Neufbox.Ead.TinySha
open ByteWords Sha1 Absorb
set_option autoImplicit false
set_option maxHeartbeats 250000
set_option maxRecDepth 120000

structure Sha1Ctx where
  state : Chain
  count0 : ℕ
  count1 : ℕ
  buffer : List UInt8
  deriving DecidableEq

/-- The buffer of a new context holds what was there before. -/
def sha1Init (buffer : List UInt8) : Sha1Ctx where
  state := ⟨0x67452301#32, 0xefcdab89#32, 0x98badcfe#32, 0x10325476#32, 0xc3d2e1f0#32⟩
  count0 := 0
  count1 := 0
  buffer := buffer

/-- `memcpy` to the buffer from byte `j` on. -/
def copyAt (buffer : List UInt8) (j : ℕ) (data : List UInt8) : List UInt8 :=
  buffer.take j ++ data ++ buffer.drop (j + data.length)

/-- The loop over the blocks that are hashed where they lie; it needs less than `fuel` passes. -/
def direct (bigEndian : Bool) (data : List UInt8) : ℕ → ℕ → Chain → ℕ × Chain
  | 0, i, state => (i, state)
  | fuel + 1, i, state =>
    if (i + 63) % 2 ^ 32 < data.length then
      direct bigEndian data fuel ((i + 64) % 2 ^ 32) (sha1Transform bigEndian state ((data.drop i).take 64))
    else (i, state)

/-- `SHA1Update` with all of `data`, whose length is an `unsigned int`. -/
def sha1Update (bigEndian : Bool) (c : Sha1Ctx) (data : List UInt8) : Sha1Ctx :=
  let len := data.length
  let j := c.count0 / 8 % 64
  let bits := len * 8 % 2 ^ 32
  let count0 := (c.count0 + bits) % 2 ^ 32
  let count1 := if count0 < bits then (c.count1 + 1) % 2 ^ 32 else c.count1
  let count1 := (count1 + len / 2 ^ 29) % 2 ^ 32
  if (j + len) % 2 ^ 32 > 63 then
    let i := 64 - j
    let buffer := copyAt c.buffer j (data.take i)
    let (i, state) := direct bigEndian data len i (sha1Transform bigEndian c.state buffer)
    ⟨state, count0, count1, copyAt buffer 0 (data.drop i)⟩
  else ⟨c.state, count0, count1, copyAt c.buffer j data⟩

/-- The loop of `SHA1Final` that adds zeros; it needs less than 64 passes. -/
def addZeros (bigEndian : Bool) : ℕ → Sha1Ctx → Sha1Ctx
  | 0, c => c
  | fuel + 1, c => if c.count0 &&& 504 ≠ 448 then addZeros bigEndian fuel (sha1Update bigEndian c [0]) else c

def countBytes (n : ℕ) : List UInt8 :=
  [UInt8.ofNat (n / 2 ^ 24), UInt8.ofNat (n / 2 ^ 16), UInt8.ofNat (n / 2 ^ 8), UInt8.ofNat n]

/-- `SHA1Final`: the digest, and the context it leaves. -/
def sha1Final (bigEndian : Bool) (c : Sha1Ctx) : List UInt8 × Sha1Ctx :=
  let finalcount := countBytes c.count1 ++ countBytes c.count0
  let c := sha1Update bigEndian c [0x80]
  let c := addZeros bigEndian 64 c
  let c := sha1Update bigEndian c finalcount
  let zero := List.replicate 64 0
  (digest c.state, ⟨sha1Transform bigEndian ⟨0, 0, 0, 0, 0⟩ zero, 0, 0, zero⟩)

/-! ## What a context stands for -/

/-- The context has taken in the bytes `m`. -/
structure Holds (c : Sha1Ctx) (m : List UInt8) : Prop where
  size : c.buffer.length = 64
  waiting : (c.state, c.buffer.take (m.length % 64)) = absorb compress 64 (Sha1.init, []) m
  count0 : c.count0 = 8 * m.length % 2 ^ 32
  count1 : c.count1 = 8 * m.length / 2 ^ 32 % 2 ^ 32

theorem Holds.start {buffer : List UInt8} (h : buffer.length = 64) : Holds (sha1Init buffer) [] :=
  ⟨h, rfl, rfl, rfl⟩

theorem copyAt_length {buffer : List UInt8} {j : ℕ} {data : List UInt8} (h : j + data.length ≤ buffer.length) :
    (copyAt buffer j data).length = buffer.length := by
  rw [copyAt, List.length_append, List.length_append, List.length_take, List.length_drop]
  omega

theorem copyAt_take {buffer : List UInt8} {j : ℕ} (data : List UInt8) (h : j ≤ buffer.length) :
    (copyAt buffer j data).take (j + data.length) = buffer.take j ++ data :=
  List.take_left' (by rw [List.length_append, List.length_take, Nat.min_eq_left h])

variable (bigEndian : Bool)

theorem direct_eq (data : List UInt8) (hdata : data.length < 2 ^ 31) (fuel i : ℕ) (hi : i ≤ data.length)
    (hfuel : data.length < i + 64 * fuel) (state : Chain) :
    absorb compress 64 (state, []) (data.drop i) =
      ((direct bigEndian data fuel i state).2, data.drop (direct bigEndian data fuel i state).1) ∧
    (direct bigEndian data fuel i state).1 ≤ data.length ∧
    data.length < (direct bigEndian data fuel i state).1 + 64 ∧
    (direct bigEndian data fuel i state).1 % 64 = i % 64 := by
  induction fuel generalizing i state with
  | zero => omega
  | succ fuel ih =>
    rw [direct]
    by_cases h : (i + 63) % 2 ^ 32 < data.length
    · have hsplit : data.drop i = (data.drop i).take 64 ++ data.drop (i + 64) := by
        rw [← List.drop_drop, List.take_append_drop]
      have htake : ((data.drop i).take 64).length = 64 := by
        rw [List.length_take, List.length_drop]
        omega
      rw [if_pos h, Nat.mod_eq_of_lt (by omega : i + 64 < 2 ^ 32), hsplit, absorb_append,
        absorb_fill compress (state, []) _ (by norm_num) (by rw [List.length_nil, htake]), List.nil_append,
        ← hsplit, ← sha1Transform_eq bigEndian]
      obtain ⟨heq, hle, hlt, hmod⟩ := ih (i + 64) (by omega) (by omega)
        (sha1Transform bigEndian state ((data.drop i).take 64))
      exact ⟨heq, hle, hlt, by omega⟩
    · rw [if_neg h]
      refine ⟨?_, hi, by omega, rfl⟩
      rw [absorb_short compress _ _ (by rw [List.length_drop, List.length_nil]; omega)]
      rfl

/-! ## Taking in a piece -/

/-- A piece that fills the block that waits: what is left over is shorter than a block. -/
theorem absorb_direct (state : Chain) (wait data : List UInt8) (hwait : wait.length < 64)
    (hfull : 64 ≤ wait.length + data.length) (hdata : data.length < 2 ^ 31) {r : ℕ × Chain}
    (hr : r = direct bigEndian data data.length (64 - wait.length)
      (sha1Transform bigEndian state (wait ++ data.take (64 - wait.length)))) :
    absorb compress 64 (state, wait) data = (r.2, data.drop r.1) ∧
      (data.drop r.1).length = (wait.length + data.length) % 64 := by
  have hfill : (data.take (64 - wait.length)).length = 64 - wait.length := by
    rw [List.length_take]
    omega
  obtain ⟨heq, hle, hlt, hmod⟩ := direct_eq bigEndian data hdata data.length (64 - wait.length)
    (by omega) (by omega) (sha1Transform bigEndian state (wait ++ data.take (64 - wait.length)))
  rw [← hr] at heq hle hlt hmod
  refine ⟨?_, by rw [List.length_drop]; omega⟩
  have hblock := absorb_fill compress (state, wait) (data.take (64 - wait.length)) hwait
    (by rw [hfill, Nat.add_sub_cancel' hwait.le])
  rw [← heq, sha1Transform_eq, ← hblock, ← absorb_append, List.take_append_drop]

/-- The words and the waiting bytes after a piece. -/
theorem Holds.update_waiting {c : Sha1Ctx} {m : List UInt8} (h : Holds c m) (data : List UInt8)
    (hdata : data.length < 2 ^ 31) :
    (sha1Update bigEndian c data).buffer.length = 64 ∧
    ((sha1Update bigEndian c data).state, (sha1Update bigEndian c data).buffer.take ((m ++ data).length % 64)) =
      absorb compress 64 (Sha1.init, []) (m ++ data) := by
  have hj : c.count0 / 8 % 64 = m.length % 64 := by
    rw [h.count0]
    omega
  have hsize := h.size
  have hwait : (c.buffer.take (m.length % 64)).length = m.length % 64 := by
    rw [List.length_take]
    omega
  rw [absorb_append, ← h.waiting, sha1Update]
  dsimp only
  rw [hj, List.length_append]
  by_cases hfull : (m.length % 64 + data.length) % 2 ^ 32 > 63
  · rw [if_pos hfull]
    have hfill : (data.take (64 - m.length % 64)).length = 64 - m.length % 64 := by
      rw [List.length_take]
      omega
    have hsame : (copyAt c.buffer (m.length % 64) (data.take (64 - m.length % 64))).length = 64 :=
      (copyAt_length (by omega)).trans hsize
    have hblock : copyAt c.buffer (m.length % 64) (data.take (64 - m.length % 64)) =
        c.buffer.take (m.length % 64) ++ data.take (64 - m.length % 64) := by
      have hall := copyAt_take (data.take (64 - m.length % 64)) (by omega : m.length % 64 ≤ c.buffer.length)
      rwa [hfill, List.take_of_length_le (by omega)] at hall
    obtain ⟨heq, hrest⟩ := absorb_direct bigEndian c.state (c.buffer.take (m.length % 64)) data
      (by omega) (by omega) hdata rfl
    rw [hwait, ← hblock] at heq hrest
    rw [heq]
    generalize direct bigEndian data data.length (64 - m.length % 64)
      (sha1Transform bigEndian c.state (copyAt c.buffer (m.length % 64) (data.take (64 - m.length % 64)))) = r
      at hrest ⊢
    generalize copyAt c.buffer (m.length % 64) (data.take (64 - m.length % 64)) = block at hsame ⊢
    have htail := copyAt_take (data.drop r.1) (Nat.zero_le block.length)
    rw [hrest, Nat.zero_add, List.take_zero, List.nil_append] at htail
    refine ⟨(copyAt_length (by omega)).trans hsame, Prod.ext rfl ?_⟩
    dsimp only
    rw [show (m.length + data.length) % 64 = (m.length % 64 + data.length) % 64 from by omega, htail]
  · rw [if_neg hfull]
    have hshort : m.length % 64 + data.length < 64 := by omega
    rw [absorb_short compress _ _ (by rw [hwait]; exact hshort)]
    refine ⟨(copyAt_length (by omega)).trans hsize, Prod.ext rfl ?_⟩
    have htail := copyAt_take data (by omega : m.length % 64 ≤ c.buffer.length)
    rw [show (m.length + data.length) % 64 = m.length % 64 + data.length from by omega]
    exact htail

theorem Holds.update {c : Sha1Ctx} {m : List UInt8} (h : Holds c m) (data : List UInt8)
    (hdata : data.length < 2 ^ 31) : Holds (sha1Update bigEndian c data) (m ++ data) := by
  obtain ⟨hsize, hwaiting⟩ := h.update_waiting bigEndian data hdata
  have h0 := h.count0
  have h1 := h.count1
  have hcount0 : (sha1Update bigEndian c data).count0 = (c.count0 + data.length * 8 % 2 ^ 32) % 2 ^ 32 := by
    rw [sha1Update]
    dsimp only
    split <;> rfl
  have hcount1 : (sha1Update bigEndian c data).count1 =
      ((if (c.count0 + data.length * 8 % 2 ^ 32) % 2 ^ 32 < data.length * 8 % 2 ^ 32 then (c.count1 + 1) % 2 ^ 32
        else c.count1) + data.length / 2 ^ 29) % 2 ^ 32 := by
    rw [sha1Update]
    dsimp only
    split <;> rfl
  refine ⟨hsize, hwaiting, ?_, ?_⟩
  · rw [hcount0, h0, List.length_append]
    omega
  · rw [hcount1, h0, h1, List.length_append]
    split <;> omega

/-- A context that took in pieces holds what they make up. -/
theorem Holds.updates {c : Sha1Ctx} {m : List UInt8} (h : Holds c m) (pieces : List (List UInt8))
    (hpieces : ∀ data ∈ pieces, data.length < 2 ^ 31) :
    Holds (pieces.foldl (sha1Update bigEndian) c) (m ++ pieces.flatten) := by
  induction pieces generalizing c m with
  | nil => rwa [List.flatten_nil, List.append_nil]
  | cons data pieces ih =>
    rw [List.foldl_cons, List.flatten_cons, ← List.append_assoc]
    exact ih (h.update bigEndian data (hpieces data List.mem_cons_self)) fun d hd => hpieces d (List.mem_cons_of_mem _ hd)

/-! ## The digest -/

theorem land_504 (n : ℕ) : n &&& 504 = 8 * (n / 8 % 64) := by
  have hmask : 504 = 63 <<< 3 := rfl
  have hlow : n / 8 % 64 = (n >>> 3) &&& 63 := by
    rw [show 63 = 2 ^ 6 - 1 from rfl, Nat.and_two_pow_sub_one_eq_mod, Nat.shiftRight_eq_div_pow]
  rw [hlow, hmask, Nat.mul_comm, show (8 : ℕ) = 2 ^ 3 from rfl, ← Nat.shiftLeft_eq]
  apply Nat.eq_of_testBit_eq
  intro i
  simp only [Nat.testBit_and, Nat.testBit_shiftLeft, Nat.testBit_shiftRight]
  by_cases hi : 3 ≤ i
  · rw [Nat.add_sub_cancel' hi]
    simp [hi]
  · simp [hi]

/-- The zeros are added until the length alone is missing. -/
theorem Holds.addZeros {c : Sha1Ctx} {m : List UInt8} (h : Holds c m) (n fuel : ℕ) (hn : (m.length + n) % 64 = 56)
    (hlt : n < 64) (hfuel : n < fuel) : Holds (addZeros bigEndian fuel c) (m ++ List.replicate n 0) := by
  induction fuel generalizing c m n with
  | zero => omega
  | succ fuel ih =>
    have hmask : c.count0 &&& 504 = 8 * (m.length % 64) := by
      rw [land_504, h.count0]
      omega
    rw [TinySha.addZeros, hmask]
    cases n with
    | zero =>
      rw [if_neg (by omega), List.replicate_zero, List.append_nil]
      exact h
    | succ n =>
      have hstep := ih (h.update bigEndian [0] (by norm_num)) n
        (by rw [List.length_append, List.length_singleton]; omega) (by omega) (by omega)
      rw [if_pos (by omega), List.replicate_succ]
      rwa [List.append_assoc, List.singleton_append] at hstep

theorem countBytes_eq (n : ℕ) : countBytes n = wordBytes (BitVec.ofNat 32 n) := by
  have hbyte (r : Fin 4) : UInt8.ofNat (n / 2 ^ (24 - 8 * (r : ℕ))) = ⟨byte (BitVec.ofNat 32 n) r⟩ := by
    apply UInt8.toNat_inj.mp
    have hr : (r : ℕ) < 4 := r.isLt
    rw [UInt8.toNat_ofNat']
    change _ = (byte (BitVec.ofNat 32 n) r).toNat
    rw [byte, BitVec.extractLsb'_toNat, BitVec.toNat_ofNat, Nat.shiftRight_eq_div_pow]
    fin_cases r <;> simp <;> omega
  have h3 := hbyte 3
  rw [show 24 - 8 * ((3 : Fin 4) : ℕ) = 0 from rfl, Nat.pow_zero, Nat.div_one] at h3
  rw [countBytes, wordBytes, ← hbyte 0, ← hbyte 1, ← hbyte 2, ← h3]
  rfl

theorem finalcount_eq {c : Sha1Ctx} {m : List UInt8} (h : Holds c m) :
    countBytes c.count1 ++ countBytes c.count0 = lengthBytes m.length := by
  have hmod (n : ℕ) : BitVec.ofNat 32 (n % 2 ^ 32) = BitVec.ofNat 32 n := by
    apply BitVec.eq_of_toNat_eq
    rw [BitVec.toNat_ofNat, BitVec.toNat_ofNat, Nat.mod_mod]
  rw [countBytes_eq, countBytes_eq, h.count0, h.count1, hmod, hmod, lengthBytes]

/-- The digest of a context is the hash of what it took in. -/
theorem Holds.final {c : Sha1Ctx} {m : List UInt8} (h : Holds c m) : (sha1Final bigEndian c).1 = sha1 m := by
  have hone := h.update bigEndian [0x80] (by norm_num)
  have hzeros := hone.addZeros bigEndian (zeros m.length) 64
    (by rw [List.length_append, List.length_singleton, zeros]; omega) (by rw [zeros]; omega) (by rw [zeros]; omega)
  have hlast := hzeros.update bigEndian (lengthBytes m.length)
    (by rw [lengthBytes_length]; norm_num)
  have hpad : m ++ [0x80] ++ List.replicate (zeros m.length) 0 ++ lengthBytes m.length = pad m := by
    rw [pad, List.append_assoc, List.append_assoc, List.singleton_append]
  rw [hpad] at hlast
  rw [sha1Final, finalcount_eq h]
  dsimp only
  rw [sha1_absorb, ← hlast.waiting]

/-- The hash of pieces is the hash of what they make up, on either kind of host. -/
theorem sha1Final_updates (buffer : List UInt8) (hbuffer : buffer.length = 64) (pieces : List (List UInt8))
    (hpieces : ∀ data ∈ pieces, data.length < 2 ^ 31) :
    (sha1Final bigEndian (pieces.foldl (sha1Update bigEndian) (sha1Init buffer))).1 = sha1 pieces.flatten :=
  ((Holds.start hbuffer).updates bigEndian pieces hpieces).final bigEndian

theorem sha1Final_updates_abc :
    (sha1Final false ([[97], [], [98, 99]].foldl (sha1Update false) (sha1Init (List.replicate 64 9)))).1 =
      sha1 [97, 98, 99] :=
  sha1Final_updates false (List.replicate 64 9) rfl [[97], [], [98, 99]] (by decide)

end Neufbox.Ead.TinySha
