import Neufbox.Mtd.Write

/-! # The image on the device

Between the rounds of `mtd_write` the device holds what was written, every block that was touched was erased once,
and the reader holds the rest of the image. -/
namespace Neufbox.Mtd
open Jffs2 ByteStore Flash WrapArith
set_option autoImplicit false
set_option maxHeartbeats 250000
set_option maxRecDepth 120000

/-! ## Filling the buffer -/

/-- No call fails, and the calls are not interrupted for ever. -/
structure Delivers (read : ℕ → ReadCall) : Prop where
  noFailure : ∀ n, read n ≠ .failed
  goesOn : ∀ n, ∃ m ≥ n, read m ≠ .interrupted

section Fill
variable {c : Config} {read : ℕ → ReadCall} {s s' : Reader} {n : ℕ}

/-- From the call with number `n` on the buffer is filled as far as the image goes. -/
def FillEnds (c : Config) (read : ℕ → ReadCall) (n : ℕ) (s : Reader) : Prop :=
  ∃ fuel n', ∀ more ≥ fuel, fillBuffer c read more n s = some (filled c s, n')

theorem FillEnds.last (h : ∀ fuel, fillBuffer c read (fuel + 1) n s = some (filled c s, n + 1)) :
    FillEnds c read n s := by
  refine ⟨1, n + 1, fun more hle => ?_⟩
  obtain ⟨fuel, rfl⟩ : ∃ fuel, more = fuel + 1 := ⟨more - 1, by omega⟩
  exact h fuel

theorem FillEnds.step (h : ∀ fuel, fillBuffer c read (fuel + 1) n s = fillBuffer c read fuel (n + 1) s')
    (hsame : filled c s' = filled c s) (hrest : FillEnds c read (n + 1) s') : FillEnds c read n s := by
  obtain ⟨fuel, n', hrest⟩ := hrest
  refine ⟨fuel + 1, n', fun more hle => ?_⟩
  obtain ⟨more, rfl⟩ : ∃ m, more = m + 1 := ⟨more - 1, by omega⟩
  rw [h, hrest more (by omega), hsame]

/-- A call that delivers either ends the loop or leaves less space. -/
theorem fillEnds_delivers {most : ℕ} (hcall : read n = .delivers most) (hbuf : s.buf.length = c.erasesize)
    (hlen : s.buflen ≤ c.erasesize)
    (ih : ∀ s' : Reader, s'.buf.length = c.erasesize → s'.buflen ≤ c.erasesize →
      c.erasesize - s'.buflen < c.erasesize - s.buflen → FillEnds c read (n + 1) s') : FillEnds c read n s := by
  obtain ⟨j, hj, hinput, hzero, hmore⟩ := readMore_eq (c := c) most s
  have hround : ∀ fuel, fillBuffer c read (fuel + 1) n s =
      if s.buflen + j = s.buflen then some (s, n + 1)
      else if s.buflen + j < c.erasesize then fillBuffer c read fuel (n + 1) (readMore c most s)
      else some (readMore c most s, n + 1) := by
    intro fuel
    rw [fillBuffer, hcall]
    simp only [hmore]
  by_cases hj0 : j = 0
  · apply FillEnds.last
    intro fuel
    rw [hround, if_pos (by omega), filled_self (hzero hj0)]
  · have hsame := filled_read (c := c) (by omega) hj hinput
    rw [← hmore] at hsame
    have hbuf' : (readMore c most s).buf.length = c.erasesize := by
      rw [hmore, overlay_length (by rw [List.length_take]; omega), hbuf]
    have hlen' : (readMore c most s).buflen = s.buflen + j := by rw [hmore]
    by_cases hfull : s.buflen + j < c.erasesize
    · apply FillEnds.step _ hsame (ih _ hbuf' (by omega) (by omega))
      intro fuel
      rw [hround, if_neg (by omega), if_pos hfull]
    · apply FillEnds.last
      intro fuel
      rw [hround, if_neg (by omega), if_neg hfull, ← hsame, filled_self (Or.inl (by omega))]

/-- Whatever the calls deliver and however often they are interrupted. -/
theorem fillBuffer_ends (hread : Delivers read) (n : ℕ) (hbuf : s.buf.length = c.erasesize)
    (hlen : s.buflen ≤ c.erasesize) : FillEnds c read n s := by
  induction hspace : c.erasesize - s.buflen using Nat.strong_induction_on generalizing s n with
  | _ space ih =>
    obtain ⟨m, hm, hgo⟩ := hread.goesOn n
    obtain ⟨k, rfl⟩ := Nat.exists_eq_add_of_le hm
    clear hm
    -- the interrupted calls before the next one that delivers
    induction k generalizing n with
    | zero =>
      cases hcall : read n with
      | interrupted => exact absurd hcall hgo
      | failed => exact absurd hcall (hread.noFailure n)
      | delivers most =>
        exact fillEnds_delivers hcall hbuf hlen fun s' hbuf' hlen' hless => ih _ (by omega) (n + 1) hbuf' hlen' rfl
    | succ k ihk =>
      cases hcall : read n with
      | interrupted =>
        have hround : ∀ fuel, fillBuffer c read (fuel + 1) n s =
            if s.buflen < c.erasesize then fillBuffer c read fuel (n + 1) s else some (s, n + 1) := by
          intro fuel
          rw [fillBuffer, hcall]
        by_cases hfull : s.buflen < c.erasesize
        · apply FillEnds.step _ rfl (ihk (n + 1) (by rwa [Nat.add_assoc, Nat.add_comm 1 k]))
          intro fuel
          rw [hround, if_pos hfull]
        · apply FillEnds.last
          intro fuel
          rw [hround, if_neg hfull, filled_self (Or.inl (by omega))]
      | failed => exact absurd hcall (hread.noFailure n)
      | delivers most =>
        exact fillEnds_delivers hcall hbuf hlen fun s' hbuf' hlen' hless => ih _ (by omega) (n + 1) hbuf' hlen' rfl

end Fill

/-! ## A round -/

/-- Between the rounds: `w` bytes of the image are on the device, and the blocks up to `e` were erased. -/
structure Copied (c : Config) (cells : ℕ → UInt8) (image : List UInt8) (s : Copier) : Prop where
  buf : s.reader.buf.length = c.erasesize
  buflen : s.reader.buflen ≤ c.erasesize
  rest : s.reader.image = image.drop s.w
  w : s.w = image.length ∨ c.erasesize ∣ s.w ∧ s.w ≤ image.length
  e : s.e = roundUp s.w c.erasesize
  content : ∀ x < s.w, some (s.device.cells x) = image[x]?
  beyond : ∀ x, s.e ≤ x → s.device.cells x = cells x
  erasures : erasures s.device.ops = (List.range (s.e / c.erasesize)).map (· * c.erasesize)
  first : ErasedFirst c.erasesize [] s.device.ops
  stops : ∀ op ∈ s.device.ops, op.stop c.erasesize ≤ s.e
  fits : image.length ≤ s.device.size
  blocks : c.erasesize ∣ s.device.size

section Round
variable {c : Config} {cells : ℕ → UInt8} {image : List UInt8} {s : Copier} (hE : 0 < c.erasesize)

/-- What the filled buffer holds. -/
theorem Copied.filled (h : Copied c cells image s) : ((filled c s.reader).buf.take (filled c s.reader).buflen =
      (image.drop s.w).take c.erasesize) ∧ (filled c s.reader).buflen = ((image.drop s.w).take c.erasesize).length ∧
      (filled c s.reader).buf.length = c.erasesize ∧ (filled c s.reader).input = image.drop (s.w + c.erasesize) := by
  have hbuf := h.buf
  have hbuflen := h.buflen
  have hrest := h.rest
  have hhave : (s.reader.buf.take s.reader.buflen).length = s.reader.buflen := List.length_take_of_le (by omega)
  have hfit : s.reader.buflen + (s.reader.input.take (c.erasesize - s.reader.buflen)).length ≤ s.reader.buf.length := by
    rw [List.length_take]
    omega
  have hblock : (image.drop s.w).take c.erasesize =
      s.reader.buf.take s.reader.buflen ++ s.reader.input.take (c.erasesize - s.reader.buflen) := by
    rw [← hrest, Reader.image, List.take_append, hhave, List.take_of_length_le (by omega)]
  have hlen : ((image.drop s.w).take c.erasesize).length =
      s.reader.buflen + (s.reader.input.take (c.erasesize - s.reader.buflen)).length := by
    rw [hblock, List.length_append, hhave]
  refine ⟨?_, hlen.symm, ?_, ?_⟩
  · rw [hblock, Jffs2.filled]
    simp only
    rw [overlay, ← List.append_assoc, List.take_left' (by rw [List.length_append, hhave])]
  · rw [Jffs2.filled]
    simp only
    rw [overlay_length hfit, hbuf]
  · rw [← List.drop_drop, ← hrest, Reader.image, List.drop_append, hhave, List.drop_of_length_le (by omega),
      List.nil_append, Jffs2.filled]

theorem eraseAhead_block (w len : ℕ) (d : Device) (hpos : 0 < len) (hlen : len ≤ c.erasesize)
    (hfits : w + c.erasesize ≤ d.size) :
    eraseAhead c (w + len) (w + len) (w, d) = .ok (w + c.erasesize, d.perform c (.erase w)) := by
  obtain ⟨fuel, hfuel⟩ : ∃ fuel, w + len = fuel + 1 := ⟨w + len - 1, by omega⟩
  have hstop : ∀ fuel d, eraseAhead c (w + len) fuel (w + c.erasesize, d) = .ok (w + c.erasesize, d) := by
    intro fuel d
    cases fuel with
    | zero => rfl
    | succ fuel => rw [eraseAhead, if_neg (by omega)]
  nth_rewrite 2 [hfuel]
  rw [eraseAhead, if_pos (by omega), mtdEraseBlock, if_neg (by omega)]
  exact hstop fuel _

include hE in
theorem roundUp_block {w : ℕ} (len : ℕ) (hw : c.erasesize ∣ w) (hpos : 0 < len) (hlen : len ≤ c.erasesize) :
    roundUp (w + len) c.erasesize = w + c.erasesize := by
  rw [roundUp_add_of_dvd hE hw]
  congr 1
  apply le_antisymm
  · exact roundUp_le hE (dvd_refl _) hlen
  · exact Nat.le_of_dvd (hpos.trans_le (le_roundUp hE)) (dvd_roundUp _ _)

include hE in
/-- A round that has read something erases one block and writes what was read to it. -/
theorem Copied.copyBuffer (h : Copied c cells image s) (calls : ℕ) (hpos : (Jffs2.filled c s.reader).buflen ≠ 0) :
    ∃ s', Mtd.copyBuffer c (Jffs2.filled c s.reader) calls s = .ok s' ∧ Copied c cells image s' ∧ s.w < s'.w := by
  obtain ⟨hdata, hlen, hbuf, hinput⟩ := h.filled
  have hfits := h.fits
  have he := h.e
  have hw := h.w
  have htake : ((image.drop s.w).take c.erasesize).length = min c.erasesize (image.length - s.w) := by
    rw [List.length_take, List.length_drop]
  rw [htake] at hlen
  have hdvd : c.erasesize ∣ s.w := by
    rcases hw with hall | hw
    · omega
    · exact hw.1
  have hlt : s.w < image.length := by omega
  generalize hn : min c.erasesize (image.length - s.w) = n at *
  have hblock : s.w + c.erasesize ≤ s.device.size := by
    obtain ⟨q, hq⟩ := hdvd
    obtain ⟨m, hm⟩ := h.blocks
    have hqm : q < m := by
      apply Nat.lt_of_mul_lt_mul_left (a := c.erasesize)
      omega
    have hmul := Nat.mul_le_mul_left c.erasesize (Nat.succ_le_of_lt hqm)
    rw [Nat.mul_succ] at hmul
    omega
  have hsame : s.e = s.w := by
    have hself := roundUp_mod s.w hE
    rw [if_pos (Nat.mod_eq_zero_of_dvd hdvd)] at hself
    rw [he, hself]
  have hahead := eraseAhead_block s.w n s.device (by omega) (by omega) hblock
  have hround := roundUp_block hE n hdvd (by omega) (by omega)
  have hdatalen : ((image.drop s.w).take c.erasesize).length = n := htake
  refine ⟨⟨{ Jffs2.filled c s.reader with buflen := 0 }, calls, s.w + n, s.w + c.erasesize,
    (s.device.perform c (.erase s.w)).perform c (.write s.w ((image.drop s.w).take c.erasesize))⟩, ?_, ?_, ?_⟩
  · rw [Mtd.copyBuffer, hlen, hsame, hahead]
    rw [hlen] at hdata
    have hroom : ¬ (s.device.perform c (.erase s.w)).size < s.w + ((image.drop s.w).take c.erasesize).length := by
      show ¬ s.device.size < _
      omega
    simp only [Except.bind, hdata, writeDevice, if_neg hroom, Except.map]
  · refine ⟨hbuf, Nat.zero_le _, ?_, ?_, hround.symm, ?_, ?_, ?_, ?_, ?_, hfits, h.blocks⟩
    · show (Jffs2.filled c s.reader).buf.take 0 ++ (Jffs2.filled c s.reader).input = image.drop (s.w + n)
      rw [List.take_zero, List.nil_append, hinput]
      by_cases hfull : n = c.erasesize
      · rw [hfull]
      · rw [List.drop_of_length_le (by omega), List.drop_of_length_le (by omega)]
    · by_cases hfull : n = c.erasesize
      · right
        show c.erasesize ∣ s.w + n ∧ s.w + n ≤ image.length
        exact ⟨by rw [hfull]; exact Nat.dvd_add hdvd (dvd_refl _), by omega⟩
      · left
        show s.w + n = _
        omega
    · intro x hx
      show some (Op.apply c.erasesize (Op.apply c.erasesize s.device.cells (.erase s.w)) (.write s.w _) x) = _
      by_cases hbefore : x < s.w
      · rw [write_before _ hbefore, erase_before _ hbefore]
        exact h.content x hbefore
      · have hx' : x < s.w + n := hx
        rw [write_erased s.device.cells (by omega) (by omega) (by omega), List.getElem?_take_of_lt (by omega),
          List.getElem?_drop, Nat.add_sub_cancel' (by omega)]
    · intro x hx
      have hx' : s.w + c.erasesize ≤ x := hx
      show Op.apply c.erasesize (Op.apply c.erasesize s.device.cells (.erase s.w)) (.write s.w _) x = _
      rw [apply_outside _ _ (by rw [Op.stop]; omega), apply_outside _ _ (by rw [Op.stop]; omega)]
      exact h.beyond x (by omega)
    · show Flash.erasures (s.device.ops ++ [.erase s.w] ++ [.write s.w _]) = (List.range ((s.w + c.erasesize) / c.erasesize)).map _
      rw [erasures_append, erasures_append, h.erasures, Nat.add_div_right _ hE, List.range_succ, List.map_append, hsame]
      simp [Flash.erasures, Nat.div_mul_cancel hdvd]
    · show ErasedFirst _ _ (s.device.ops ++ [.erase s.w] ++ [.write s.w _])
      rw [List.append_assoc]
      apply h.first.append
      refine ⟨fun x hx hx' => ?_, trivial⟩
      obtain ⟨q, hq⟩ := hdvd
      have hdiv : x / c.erasesize = q := by
        apply Nat.div_eq_of_lt_le
        · rw [Nat.mul_comm]
          omega
        · rw [Nat.succ_mul, Nat.mul_comm q]
          omega
      rw [hdiv, Nat.mul_comm q, ← hq]
      exact List.mem_cons_self
    · intro op hop
      show op.stop c.erasesize ≤ s.w + c.erasesize
      have hop' : op ∈ s.device.ops ++ [.erase s.w] ++ [.write s.w ((image.drop s.w).take c.erasesize)] := hop
      simp only [List.mem_append, List.mem_singleton] at hop'
      rcases hop' with (hold | rfl) | rfl
      · have hle := h.stops op hold
        omega
      · exact le_refl _
      · rw [Op.stop]
        omega
  · show s.w < s.w + n
    omega

end Round

/-! ## The whole run -/

/-- What a copy leaves on a device that held `cells`. -/
structure ImageCopied (c : Config) (cells : ℕ → UInt8) (image : List UInt8) (d : Device) : Prop where
  content : ∀ x < image.length, some (d.cells x) = image[x]?
  erasedOnce : ∀ off data, Op.write off data ∈ d.ops → ∀ x, off ≤ x → x < off + data.length →
    d.ops.count (.erase (x / c.erasesize * c.erasesize)) = 1
  erasedFirst : ErasedFirst c.erasesize [] d.ops
  untouched : ∀ op ∈ d.ops, op.stop c.erasesize ≤ roundUp image.length c.erasesize
  kept : ∀ x, roundUp image.length c.erasesize ≤ x → d.cells x = cells x

section Run
variable {c : Config} {cells : ℕ → UInt8} {image : List UInt8} {s : Copier} (hE : 0 < c.erasesize)
  {read : ℕ → ReadCall}

include hE in
theorem Copied.finish (h : Copied c cells image s) (hall : s.w = image.length) : ImageCopied c cells image s.device := by
  have he := h.e
  rw [hall] at he
  refine ⟨fun x hx => h.content x (by omega), ?_, h.first, fun op hop => ?_, fun x hx => h.beyond x (by omega)⟩
  · intro off data hmem x hx hx'
    have herased := (h.first.mem_erasures hmem hx hx').resolve_left List.not_mem_nil
    have hnodup : (Flash.erasures s.device.ops).Nodup := by
      rw [h.erasures]
      exact List.nodup_range.map fun i j hij => Nat.eq_of_mul_eq_mul_right hE hij
    rw [count_erase]
    exact List.count_eq_one_of_mem hnodup herased
  · rw [← he]
    exact h.stops op hop

include hE in
/-- From any state between the rounds the copy comes to its end. -/
theorem Copied.run (hread : Delivers read) (h : Copied c cells image s) : ∃ fuel rounds s', (∀ fuel' ≥ fuel,
    ∀ rounds' ≥ rounds, mtdWrite c read fuel' rounds' s = some (.ok s')) ∧ ImageCopied c cells image s'.device := by
  induction hleft : image.length - s.w using Nat.strong_induction_on generalizing s with
  | _ left ih =>
    obtain ⟨fuel, calls, hfill⟩ := fillBuffer_ends hread s.calls h.buf h.buflen
    by_cases hzero : (Jffs2.filled c s.reader).buflen = 0
    · have hall : s.w = image.length := by
        have hlen := h.filled.2.1
        have hw := h.w
        rw [hzero, List.length_take, List.length_drop] at hlen
        omega
      have hcopied : ImageCopied c cells image s.device := h.finish hE hall
      refine ⟨fuel, 1, { s with reader := Jffs2.filled c s.reader, calls := calls },
        fun fuel' hle rounds' hrounds => ?_, hcopied⟩
      obtain ⟨rounds, rfl⟩ : ∃ m, rounds' = m + 1 := ⟨rounds' - 1, by omega⟩
      rw [mtdWrite, hfill fuel' hle, Option.bind_some]
      exact if_pos hzero
    · obtain ⟨s₁, hcopy, hs₁, hmore⟩ := h.copyBuffer hE calls hzero
      have hw := h.w
      have hlt : s.w < image.length := by
        have hlen := h.filled.2.1
        rw [List.length_take, List.length_drop] at hlen
        omega
      obtain ⟨fuel₁, rounds₁, s', hrun, hcopied⟩ := ih (image.length - s₁.w) (by omega) hs₁ rfl
      refine ⟨max fuel fuel₁, rounds₁ + 1, s', fun fuel' hle rounds' hrounds => ?_, hcopied⟩
      obtain ⟨rounds, rfl⟩ : ∃ m, rounds' = m + 1 := ⟨rounds' - 1, by omega⟩
      rw [mtdWrite, hfill fuel' (by omega), Option.bind_some]
      dsimp only
      rw [if_neg hzero, hcopy]
      exact hrun fuel' (by omega) rounds (by omega)

end Run

/-! ## With and without the check -/

/-- Whatever was read before is the start of the image, in a buffer of one block. -/
structure Preloaded (c : Config) (image : List UInt8) (r : Reader) : Prop where
  buf : r.buf.length = c.erasesize
  buflen : r.buflen ≤ c.erasesize
  image : r.image = image

theorem imageCheck_preloads {c : Config} {trx : Bool} {mtdsize : ℕ} {read : ℕ → ReadCall} {heap image : List UInt8}
    {r : Reader} {calls : ℕ} (hheap : heap.length = c.erasesize) (hroom : trx = true → 32 ≤ c.erasesize)
    (h : imageCheck c trx mtdsize read ⟨heap, 0, image⟩ = some (r, calls)) : Preloaded c image r := by
  rw [imageCheck] at h
  split at h
  · next htrx =>
    have hroom := hroom htrx
    obtain ⟨r', hcheck, heq⟩ := Option.map_eq_some_iff.mp h
    cases heq
    unfold trxCheck at hcheck
    split at hcheck
    · next most _ =>
      simp only at hcheck
      split at hcheck
      · cases hcheck
      · next hlen =>
        rw [List.length_take] at hlen
        have hmin : min 32 (most + 1) = 32 := by omega
        rw [hmin] at hcheck
        split at hcheck
        · cases hcheck
        · split at hcheck
          · cases hcheck
          · cases hcheck
            have hdata : (image.take 32).length = 32 := List.length_take_of_le (by omega)
            refine ⟨?_, hroom, ?_⟩
            · rw [overlay_length (by omega), hheap]
            · show (overlay heap 0 (image.take 32)).take 32 ++ image.drop 32 = image
              rw [overlay, List.take_zero, List.nil_append, List.take_left' hdata, List.take_append_drop]
    · cases hcheck
  · cases h
    exact ⟨hheap, Nat.zero_le _, rfl⟩

theorem Preloaded.copied {c : Config} (hE : 0 < c.erasesize) {image : List UInt8} {r : Reader}
    (h : Preloaded c image r) (calls : ℕ) {d : Device} (hblocks : c.erasesize ∣ d.size)
    (hfits : image.length ≤ d.size) (hnew : d.ops = []) : Copied c d.cells image ⟨r, calls, 0, 0, d⟩ := by
  refine ⟨h.buf, h.buflen, h.image, Or.inr ⟨dvd_zero _, Nat.zero_le _⟩, ?_, ?_, fun _ _ => rfl, ?_, ?_, ?_, hfits,
    hblocks⟩
  · show 0 = roundUp 0 c.erasesize
    rw [roundUp_mod 0 hE, if_pos (Nat.zero_mod _)]
  · exact fun x hx => absurd hx (Nat.not_lt_zero x)
  · show erasures d.ops = (List.range (0 / c.erasesize)).map _
    rw [hnew, Nat.zero_div]
    rfl
  · rw [hnew]
    trivial
  · rw [hnew]
    exact fun op hop => absurd hop List.not_mem_nil

/-- From any bytes read before the copy comes to its end and leaves the image on the device; so does the command
where the image passes the check. -/
theorem mtd_write_copies {c : Config} (hE : 0 < c.erasesize) {read : ℕ → ReadCall} (hread : Delivers read)
    {image : List UInt8} {d : Device} (hblocks : c.erasesize ∣ d.size) (hfits : image.length ≤ d.size)
    (hnew : d.ops = []) :
    (∀ r calls, Preloaded c image r →
      ∃ fuel s, (∀ more ≥ fuel, mtdWrite c read more more ⟨r, calls, 0, 0, d⟩ = some (.ok s)) ∧
        ImageCopied c d.cells image s.device) ∧
    ∀ trx heap, (trx = true → 32 ≤ c.erasesize) → heap.length = c.erasesize →
      (imageCheck c trx d.size read ⟨heap, 0, image⟩).isSome →
      ∃ fuel s, (∀ more ≥ fuel, writeImage c trx read more heap image d = some (.ok s)) ∧
        ImageCopied c d.cells image s.device := by
  have hcopies : ∀ r calls, Preloaded c image r →
      ∃ fuel s, (∀ more ≥ fuel, mtdWrite c read more more ⟨r, calls, 0, 0, d⟩ = some (.ok s)) ∧
        ImageCopied c d.cells image s.device := by
    intro r calls hpre
    obtain ⟨fuel, rounds, s, hrun, hcopied⟩ := (hpre.copied hE calls hblocks hfits hnew).run hE hread
    exact ⟨max fuel rounds, s, fun more hle => hrun more (by omega) more (by omega), hcopied⟩
  refine ⟨hcopies, fun trx heap hroom hheap hcheck => ?_⟩
  obtain ⟨⟨r, calls⟩, hcheck⟩ := Option.isSome_iff_exists.mp hcheck
  obtain ⟨fuel, s, hrun, hcopied⟩ := hcopies r calls (imageCheck_preloads hheap hroom hcheck)
  refine ⟨fuel, s, fun more hle => ?_, hcopied⟩
  rw [writeImage, hcheck]
  exact hrun more hle

/-- The first call is interrupted, the others deliver up to three bytes. -/
def shortReads : ℕ → ReadCall
  | 0 => .interrupted
  | _ + 1 => .delivers 2

theorem shortReads_delivers : Delivers shortReads where
  noFailure := by
    intro n
    cases n <;> simp [shortReads]
  goesOn := fun n => ⟨n + 1, Nat.le_succ n, by simp [shortReads]⟩

def blankDevice : Device := ⟨8, fun _ => 0, []⟩

/-- The command without a check, and a copy behind the first three bytes. -/
theorem mtd_write_copies_short :
    (∃ fuel s, (∀ more ≥ fuel, writeImage ⟨true, 4⟩ false shortReads more [0, 0, 0, 0] [1, 2, 3, 4, 5] blankDevice =
      some (.ok s)) ∧ ImageCopied ⟨true, 4⟩ blankDevice.cells [1, 2, 3, 4, 5] s.device) ∧
    ∃ fuel s, (∀ more ≥ fuel,
      mtdWrite ⟨true, 4⟩ shortReads more more ⟨⟨[1, 2, 3, 0], 3, [4, 5]⟩, 1, 0, 0, blankDevice⟩ = some (.ok s)) ∧
      ImageCopied ⟨true, 4⟩ blankDevice.cells [1, 2, 3, 4, 5] s.device := by
  obtain ⟨hpreloaded, hcommand⟩ := @mtd_write_copies ⟨true, 4⟩ (by decide) shortReads shortReads_delivers
    [1, 2, 3, 4, 5] blankDevice (by decide) (by decide) rfl
  exact ⟨hcommand false _ (fun h => by cases h) rfl rfl, hpreloaded _ 1 ⟨rfl, by decide, rfl⟩⟩

end Neufbox.Mtd
