import Neufbox.Jffs2.Emitted

/-! # The layout of appended blocks

While nodes are put together, the buffer holds the clean marker and whole nodes, each padded to four
bytes; a block is written out when it is full or when the next node does not fit. `Layout` states this
for the blocks written so far and the block at hand, and every step of the append keeps it. -/
namespace Neufbox.Jffs2
open Memory ByteStore WrapArith
set_option autoImplicit false
set_option maxHeartbeats 250000
set_option maxRecDepth 120000

/-- What the appending code relies on; `erasesize` is an `int`. -/
structure Config.Valid (c : Config) : Prop where
  dvd : 4 ∣ c.erasesize
  large : 4096 ≤ c.erasesize
  int : c.erasesize < 2 ^ 31

/-! ## The buffer -/

/-- The first bytes of the buffer, up to the current offset. -/
structure Holds (c : Config) (s : Appender) (bs : List UInt8) : Prop where
  buf : s.buf.length = c.erasesize
  ofs : s.ofs = bs.length
  bytes : s.buf.take bs.length = bs

/-- What has gone to the device. -/
def Appender.device (s : Appender) : ℕ × ℕ × List BlockWrite := (s.mtdofs, s.filePos, s.written)

section Buffer
variable {c : Config} {s : Appender} {bs : List UInt8}

theorem Holds.le (h : Holds c s bs) : bs.length ≤ c.erasesize := by
  have hlen := congrArg List.length h.bytes
  rw [List.length_take, h.buf] at hlen
  omega

/-- Copying behind the current offset appends. -/
theorem take_overlay {buf bs : List UInt8} (hbytes : buf.take bs.length = bs) (xs : List UInt8) :
    (overlay buf bs.length xs).take (bs ++ xs).length = bs ++ xs := by
  rw [overlay, hbytes, ← List.append_assoc, List.take_left]

theorem holds_put (h : Holds c s bs) (xs : List UInt8) (hfit : bs.length + xs.length ≤ c.erasesize) :
    Holds c (put xs s) (bs ++ xs) where
  buf := by
    show (overlay s.buf s.ofs xs).length = _
    rw [overlay_length (by rw [h.ofs, h.buf]; exact hfit), h.buf]
  ofs := by
    show s.ofs + xs.length = _
    rw [h.ofs, List.length_append]
  bytes := by
    show (overlay s.buf s.ofs xs).take _ = _
    rw [h.ofs]
    exact take_overlay h.bytes xs

/-- The bytes with `0xff` up to the next multiple. -/
def padTo (size : ℕ) (bs : List UInt8) : List UInt8 :=
  bs ++ List.replicate (roundUp bs.length size - bs.length) 0xff

theorem padTo_length {size : ℕ} (hsize : 0 < size) (bs : List UInt8) :
    (padTo size bs).length = roundUp bs.length size := by
  have hle := le_roundUp (x := bs.length) hsize
  rw [padTo, List.length_append, List.length_replicate]
  omega

theorem padTo_self {size : ℕ} (hsize : 0 < size) {bs : List UInt8} (h : bs.length % size = 0) :
    padTo size bs = bs := by
  rw [padTo, roundUp_mod bs.length hsize, if_pos h, Nat.sub_self, List.replicate_zero, List.append_nil]

/-- `pad` fills up to a multiple; a block that is full by then is written and the buffer starts over. -/
theorem holds_pad (h : Holds c s bs) {size : ℕ} (hsize : 0 < size) (hdvd : size ∣ c.erasesize) :
    (roundUp bs.length size < c.erasesize → Holds c (pad c size s) (padTo size bs) ∧
      (pad c size s).device = s.device) ∧
    (roundUp bs.length size = c.erasesize → Holds c (pad c size s) [] ∧
      (pad c size s).device = ((s.mtdofs + c.erasesize) % 2 ^ 32, s.filePos + c.erasesize,
        s.written ++ [⟨s.mtdofs, s.filePos, padTo size bs⟩])) := by
  have hle := h.le
  have hround := roundUp_mod bs.length hsize
  by_cases hskip : s.ofs % size = 0 ∧ s.ofs < c.erasesize
  · -- nothing to do
    have hself : pad c size s = s := if_pos hskip
    rw [h.ofs] at hskip
    rw [if_pos hskip.1] at hround
    rw [hself, padTo_self hsize hskip.1, hround]
    exact ⟨fun _ => ⟨h, rfl⟩, fun heq => absurd heq (by omega)⟩
  · by_cases hfull : s.ofs < c.erasesize
    · have hmod : ¬ bs.length % size = 0 := by
        rw [h.ofs] at hskip hfull
        exact fun hz => hskip ⟨hz, hfull⟩
      rw [if_neg hmod] at hround
      have hpadle : roundUp bs.length size ≤ c.erasesize := roundUp_le hsize hdvd hle
      have hfit : bs.length + (List.replicate (size - bs.length % size) (0xff : UInt8)).length ≤ c.erasesize := by
        rw [List.length_replicate]
        omega
      have hput := holds_put h _ hfit
      have hbytes : bs ++ List.replicate (size - bs.length % size) 0xff = padTo size bs := by
        rw [padTo, hround, Nat.add_sub_cancel_left]
      rw [hbytes] at hput
      have hpad : pad c size s =
          let s' := { put (List.replicate (size - bs.length % size) 0xff) s with
            ofs := roundUp bs.length size % c.erasesize }
          if roundUp bs.length size % c.erasesize = 0 then flush c s' else s' := by
        have hofs : s.ofs + (size - s.ofs % size) = roundUp bs.length size := by rw [h.ofs, hround]
        rw [pad, if_neg hskip]
        simp only [if_pos hfull, hofs, put]
        rw [h.ofs]
      rw [hpad]
      constructor
      · intro hlt
        have hpos : ¬ roundUp bs.length size = 0 := by
          have hmodlt := Nat.mod_lt bs.length hsize
          omega
        simp only [Nat.mod_eq_of_lt hlt, if_neg hpos]
        refine ⟨⟨hput.buf, ?_, hput.bytes⟩, rfl⟩
        show roundUp bs.length size = _
        rw [padTo_length hsize]
      · intro heq
        have hzero : roundUp bs.length size % c.erasesize = 0 := by rw [heq, Nat.mod_self]
        simp only [hzero, if_true]
        refine ⟨⟨hput.buf, rfl, rfl⟩, ?_⟩
        have htake := hput.bytes
        rw [padTo_length hsize, heq] at htake
        show (_, _, s.written ++ [⟨_, _, (put (List.replicate (size - bs.length % size) 0xff) s).buf.take _⟩]) = _
        rw [htake]
        rfl
    · -- the buffer is full already
      have hlen : bs.length = c.erasesize := by
        rw [h.ofs] at hfull
        omega
      have hzero : bs.length % size = 0 := by
        rw [hlen]
        exact Nat.mod_eq_zero_of_dvd hdvd
      rw [if_pos hzero, hlen] at hround
      have hpad : pad c size s = flush c { s with ofs := 0 } := by
        have hofs : s.ofs % c.erasesize = 0 := by rw [h.ofs, hlen, Nat.mod_self]
        rw [pad, if_neg hskip]
        simp only [if_neg hfull, hofs, if_true]
      rw [hpad, padTo_self hsize hzero, hlen, hround]
      refine ⟨fun hlt => absurd hlt (lt_irrefl _), fun _ => ⟨⟨h.buf, rfl, rfl⟩, ?_⟩⟩
      have htake := h.bytes
      rw [hlen] at htake
      show (_, _, s.written ++ [⟨_, _, s.buf.take c.erasesize⟩]) = _
      rw [htake]
      rfl

end Buffer

/-! ## Blocks of nodes -/

section Blocks
variable (c : Config)

def blockPrefix (ns : List Node) : List UInt8 :=
  cleanMarker c.be ++ ns.flatMap fun n => padTo 4 (n.bytes c.be)

def fullBlock (ns : List Node) : List UInt8 := padTo c.erasesize (blockPrefix c ns)

/-- The blocks as they go to the device, from a position on. -/
def blocksAt (start : ℕ) (done : List (List Node)) : List BlockWrite :=
  done.mapIdx fun i ns => ⟨(start + i * c.erasesize) % 2 ^ 32, start + i * c.erasesize, fullBlock c ns⟩

theorem cleanMarker_length (be : Bool) : (cleanMarker be).length = 12 := by
  cases be <;> rfl

@[simp] theorem blockPrefix_nil : blockPrefix c [] = cleanMarker c.be := by
  simp [blockPrefix]

theorem blockPrefix_concat (ns : List Node) (n : Node) :
    blockPrefix c (ns ++ [n]) = blockPrefix c ns ++ padTo 4 (n.bytes c.be) := by
  simp [blockPrefix]

theorem dvd_blockPrefix (ns : List Node) : 4 ∣ (blockPrefix c ns).length := by
  induction ns using List.reverseRecOn with
  | nil =>
    rw [blockPrefix_nil, cleanMarker_length]
    decide
  | append_singleton ns n ih =>
    rw [blockPrefix_concat, List.length_append, padTo_length (by norm_num)]
    exact Nat.dvd_add ih (dvd_roundUp _ 4)

theorem blockPrefix_pos (ns : List Node) : 12 ≤ (blockPrefix c ns).length := by
  rw [blockPrefix, List.length_append, cleanMarker_length]
  omega

/-- Padding the node pads the block. -/
theorem padTo_blockPrefix (ns : List Node) (n : Node) :
    padTo 4 (blockPrefix c ns ++ n.bytes c.be) = blockPrefix c (ns ++ [n]) := by
  have hround : roundUp (blockPrefix c ns ++ n.bytes c.be).length 4 =
      (blockPrefix c ns).length + roundUp (n.bytes c.be).length 4 := by
    rw [List.length_append, roundUp_add_of_dvd (by norm_num) (dvd_blockPrefix c ns)]
  rw [blockPrefix_concat, padTo, hround, List.length_append, padTo, ← List.append_assoc]
  congr 2
  omega

theorem roundUp_of_lt {n m : ℕ} (hn : 0 < n) (hm : n ≤ m) : roundUp n m = m := by
  have hpos : 0 < m := by omega
  apply le_antisymm
  · exact roundUp_le hpos (dvd_refl m) hm
  · obtain ⟨k, hk⟩ := dvd_roundUp n m
    have hle := le_roundUp (x := n) hpos
    rw [hk] at hle ⊢
    have hk0 : k ≠ 0 := by
      rintro rfl
      omega
    exact Nat.le_mul_of_pos_right m (Nat.pos_of_ne_zero hk0)

theorem blocksAt_concat (start : ℕ) (done : List (List Node)) (ns : List Node) :
    blocksAt c start (done ++ [ns]) = blocksAt c start done ++
      [⟨(start + done.length * c.erasesize) % 2 ^ 32, start + done.length * c.erasesize, fullBlock c ns⟩] := by
  rw [blocksAt, List.mapIdx_concat, blocksAt]

end Blocks

/-! ## The invariant -/

/-- The bytes of the block at hand; a block that is not begun yet has none. -/
def currentBytes (c : Config) : Option (List Node) → List UInt8
  | none => []
  | some ns => blockPrefix c ns

/-- The nodes put together are those of the blocks written and of the block at hand. -/
structure Layout (c : Config) (start : ℕ) (s : Appender) (done : List (List Node)) (cur : Option (List Node)) :
    Prop where
  holds : Holds c s (currentBytes c cur)
  room : (currentBytes c cur).length < c.erasesize
  device : s.device = ((start + done.length * c.erasesize) % 2 ^ 32, start + done.length * c.erasesize,
    blocksAt c start done)
  fits : ∀ ns ∈ done, (blockPrefix c ns).length ≤ c.erasesize
  emitted : s.emitted = done.flatten ++ cur.getD []

section Steps
variable {c : Config} (hc : c.Valid) {start : ℕ} {s : Appender} {done : List (List Node)} {cur : Option (List Node)}
  {ns : List Node}

theorem emitted_of_ledger {s t : Appender} (h : s.ledger = t.ledger) : s.emitted = t.emitted :=
  (Appender.ledger_eq h).2.2

include hc in
/-- The clean marker is there when nodes are to come. -/
theorem Layout.prep (h : Layout c start s done cur) :
    Layout c start (prepEraseblock c s) done (some (cur.getD [])) := by
  have hlarge := hc.large
  cases cur with
  | none =>
    have hofs : ¬ 0 < s.ofs := by
      rw [h.holds.ofs]
      exact lt_irrefl 0
    have hprep : prepEraseblock c s = put (cleanMarker c.be) s := if_neg hofs
    have hput := holds_put h.holds (cleanMarker c.be) (by
      rw [cleanMarker_length]
      show 0 + 12 ≤ _
      omega)
    rw [hprep]
    refine ⟨?_, ?_, h.device, h.fits, h.emitted⟩
    · simpa only [currentBytes, Option.getD_none, blockPrefix_nil, List.nil_append] using hput
    · show (blockPrefix c []).length < _
      rw [blockPrefix_nil, cleanMarker_length]
      omega
  | some ns =>
    have hofs : 0 < s.ofs := by
      have hpos := blockPrefix_pos c ns
      rw [h.holds.ofs]
      show 0 < (blockPrefix c ns).length
      omega
    have hprep : prepEraseblock c s = s := if_pos hofs
    rw [hprep]
    exact h

include hc in
/-- Padding to the erase size writes the block at hand. -/
theorem Layout.padBlock (h : Layout c start s done (some ns)) :
    Layout c start (pad c c.erasesize s) (done ++ [ns]) none := by
  have hlarge := hc.large
  have hpos := blockPrefix_pos c ns
  have hround : roundUp (blockPrefix c ns).length c.erasesize = c.erasesize := by
    apply roundUp_of_lt (by omega)
    exact h.room.le
  obtain ⟨hholds, hdevice⟩ := (holds_pad h.holds (by omega) (dvd_refl _)).2 hround
  have hs := h.device
  simp only [Appender.device, Prod.mk.injEq] at hs
  obtain ⟨hmtdofs, hfilePos, hwritten⟩ := hs
  refine ⟨hholds, by show 0 < _; omega, ?_, ?_, ?_⟩
  · rw [hdevice, hmtdofs, hfilePos, hwritten, blocksAt_concat, List.length_append, List.length_singleton,
      Nat.add_mul, Nat.one_mul, Nat.mod_add_mod, Nat.add_assoc]
    rfl
  · intro ms hms
    rcases List.mem_append.mp hms with hms | hms
    · exact h.fits ms hms
    · rw [List.mem_singleton.mp hms]
      exact h.room.le
  · rw [emitted_of_ledger (ledger_pad c c.erasesize s), h.emitted]
    simp

/-- A node was copied behind the others, and nothing else changed on the way. -/
structure NodePut (c : Config) (s s' : Appender) (n : Node) : Prop where
  buf : s'.buf = overlay s.buf s.ofs (n.bytes c.be)
  ofs : s'.ofs = s.ofs + (n.bytes c.be).length
  device : s'.device = s.device
  emitted : s'.emitted = s.emitted ++ [n]

/-- A node may be copied in two pieces. -/
theorem nodePut_two {n : Node} {xs ys : List UInt8} (hbytes : n.bytes c.be = xs ++ ys)
    (hofs : s.ofs ≤ s.buf.length) : NodePut c s (emit n (put ys (put xs s))) n where
  buf := by
    rw [hbytes, ← overlay_append hofs]
    rfl
  ofs := by
    rw [hbytes, List.length_append, ← Nat.add_assoc]
    rfl
  device := rfl
  emitted := rfl

include hc in
/-- Padding behind a node: the block goes on, or it is full and is written. -/
theorem Layout.padNode (h : Layout c start s done (some ns)) {s' : Appender} {n : Node} (hput : NodePut c s s' n)
    (hfit : s.ofs + (n.bytes c.be).length ≤ c.erasesize) :
    ((blockPrefix c (ns ++ [n])).length < c.erasesize ∧ Layout c start (pad c 4 s') done (some (ns ++ [n]))) ∨
      ((blockPrefix c (ns ++ [n])).length = c.erasesize ∧
        Layout c start (pad c 4 s') (done ++ [ns ++ [n]]) none) := by
  have hlarge := hc.large
  have hfit' : (blockPrefix c ns).length + (n.bytes c.be).length ≤ c.erasesize := by
    have hofs := h.holds.ofs
    rw [hofs] at hfit
    exact hfit
  have hheld : Holds c s' (blockPrefix c ns ++ n.bytes c.be) := by
    have hp := holds_put h.holds _ hfit'
    exact ⟨by rw [hput.buf]; exact hp.buf, by rw [hput.ofs]; exact hp.ofs, by rw [hput.buf]; exact hp.bytes⟩
  have hlen : roundUp (blockPrefix c ns ++ n.bytes c.be).length 4 = (blockPrefix c (ns ++ [n])).length := by
    rw [← padTo_length (by norm_num), padTo_blockPrefix]
  have hle : (blockPrefix c (ns ++ [n])).length ≤ c.erasesize := by
    rw [← hlen]
    exact roundUp_le (by norm_num) hc.dvd hheld.le
  have hpad := holds_pad hheld (by norm_num : 0 < 4) hc.dvd
  rw [hlen, padTo_blockPrefix] at hpad
  have hemitted : (pad c 4 s').emitted = s.emitted ++ [n] := by
    rw [emitted_of_ledger (ledger_pad c 4 s'), hput.emitted]
  rcases Nat.lt_or_eq_of_le hle with hlt | heq
  · obtain ⟨hholds, hdevice⟩ := hpad.1 hlt
    left
    refine ⟨hlt, hholds, hlt, hdevice.trans (hput.device.trans h.device), h.fits, ?_⟩
    rw [hemitted, h.emitted]
    simp
  · obtain ⟨hholds, hdevice⟩ := hpad.2 heq
    have hs := hput.device.trans h.device
    simp only [Appender.device, Prod.mk.injEq] at hs
    obtain ⟨hmtdofs, hfilePos, hwritten⟩ := hs
    have hfull : fullBlock c (ns ++ [n]) = blockPrefix c (ns ++ [n]) := by
      rw [fullBlock, padTo_self (by omega) (by rw [heq, Nat.mod_self])]
    right
    refine ⟨heq, hholds, by show 0 < _; omega, ?_, ?_, ?_⟩
    · rw [hdevice, hmtdofs, hfilePos, hwritten, blocksAt_concat, List.length_append, List.length_singleton,
        Nat.add_mul, Nat.one_mul, Nat.mod_add_mod, Nat.add_assoc, hfull]
    · intro ms hms
      rcases List.mem_append.mp hms with hms | hms
      · exact h.fits ms hms
      · rw [List.mem_singleton.mp hms]
        exact hle
    · rw [hemitted, h.emitted]
      simp

end Steps

/-! ## Entries -/

section Appending
variable {c : Config} (hc : c.Valid) {start : ℕ} {s : Appender} {done : List (List Node)} {cur : Option (List Node)}
  {ns : List Node}

/-- In the space test of `add_dirent` the difference is never small. -/
theorem space_test {ofs size n : ℕ} (hofs : ofs < size) (hsize : size < 2 ^ 31) (hn : n < 2 ^ 31) :
    ¬ wrapSub 32 ofs size < n := by
  have hmod : size % 2 ^ 32 = size := Nat.mod_eq_of_lt (by omega)
  rw [wrapSub, hmod, Nat.mod_eq_of_lt (by omega)]
  omega

include hc in
/-- Entries come first in a block, where there is room for them. -/
theorem Layout.addDirent (h : Layout c start s done cur) {name : List UInt8} (hname : name.length ≤ 255)
    (hroom : (blockPrefix c (cur.getD [])).length + 300 < c.erasesize) (type : UInt8) (parent : ℕ) :
    ∃ de : Dirent, de.name = name ∧
      Layout c start (Jffs2.addDirent c name type parent s).1 done (some (cur.getD [] ++ [.dirent de])) ∧
      (blockPrefix c (cur.getD [] ++ [.dirent de])).length ≤ (blockPrefix c (cur.getD [])).length + 300 := by
  have hint := hc.int
  have htest : ¬ wrapSub 32 s.ofs c.erasesize < 40 + name.length := by
    apply space_test _ hint (by omega)
    rw [h.holds.ofs]
    exact h.room
  have hprep := h.prep hc
  have hofs : (prepEraseblock c s).ofs = (blockPrefix c (cur.getD [])).length := hprep.holds.ofs
  rw [Jffs2.addDirent, if_neg htest]
  simp only
  generalize hde : (⟨parent, (prepEraseblock c s).lastVersion, ((prepEraseblock c s).lastIno + 1) % 2 ^ 32,
    type, name⟩ : Dirent) = de
  have hdename : de.name = name := by rw [← hde]
  have hlen : (Node.bytes c.be (.dirent de)).length = 40 + name.length := by
    rw [Node.bytes, Dirent.bytes_length, hdename]
  have hgrow : (blockPrefix c (cur.getD [] ++ [.dirent de])).length ≤ (blockPrefix c (cur.getD [])).length + 300 := by
    have hlt := roundUp_lt (x := 40 + name.length) (by norm_num : 0 < 4)
    rw [blockPrefix_concat, List.length_append, padTo_length (by norm_num), hlen]
    omega
  refine ⟨de, hdename, ?_, hgrow⟩
  have hput : NodePut c (prepEraseblock c s) (emit (.dirent de) { prepEraseblock c s with
      buf := overlay (prepEraseblock c s).buf (prepEraseblock c s).ofs (de.bytes c.be)
      ofs := (prepEraseblock c s).ofs + 40 + name.length % 256
      lastIno := ((prepEraseblock c s).lastIno + 2) % 2 ^ 32
      lastVersion := ((prepEraseblock c s).lastVersion + 1) % 2 ^ 32 }) (.dirent de) := by
    refine ⟨rfl, ?_, rfl, rfl⟩
    show (prepEraseblock c s).ofs + 40 + name.length % 256 = _
    rw [hlen, Nat.mod_eq_of_lt (by omega), Nat.add_assoc]
  rcases hprep.padNode hc hput (by rw [hofs, hlen]; omega) with ⟨-, hlayout⟩ | ⟨hfull, -⟩
  · exact hlayout
  · omega

/-! ## Files -/

include hc in
/-- An inode and its data, where they fit. -/
theorem Layout.addInode (h : Layout c start s done (some ns)) (n : Inode)
    (hfit : s.ofs + 68 + n.data.length ≤ c.erasesize) {s' : Appender}
    (hs' : s' = emit (.inode n) (addData c n.data (addData c (n.header c.be) s))) :
    ∃ done' cur', Layout c start (pad c 4 s') done' cur' ∧
      (∀ ms, cur' = some ms → done' = done ∧ ms = ns ++ [.inode n]) ∧
      (cur' = none → (blockPrefix c (ns ++ [.inode n])).length = c.erasesize) := by
  have hheader := Inode.header_length c.be n
  have hfirst : addData c (n.header c.be) s = put (n.header c.be) s := by
    rw [addData, if_neg (by rw [hheader]; omega)]
  have hsecond : addData c n.data (put (n.header c.be) s) = put n.data (put (n.header c.be) s) := by
    have hofs : (put (n.header c.be) s).ofs = s.ofs + 68 := by
      show s.ofs + (n.header c.be).length = _
      rw [hheader]
    rw [addData, if_neg (by rw [hofs]; omega)]
  have hput : NodePut c s s' (.inode n) := by
    rw [hs', hfirst, hsecond]
    apply nodePut_two
    · rw [Node.bytes]
    · rw [h.holds.buf]
      omega
  have hlen : (Node.bytes c.be (.inode n)).length = 68 + n.data.length := by
    rw [Node.bytes, List.length_append, hheader]
  rcases h.padNode hc hput (by rw [hlen]; omega) with ⟨-, hlayout⟩ | ⟨hfull, hlayout⟩
  · refine ⟨done, some (ns ++ [.inode n]), hlayout, ?_, by simp⟩
    rintro ms ⟨⟩
    exact ⟨rfl, rfl⟩
  · exact ⟨_, none, hlayout, by simp, fun _ => hfull⟩

theorem Layout.rbytes_eq (h : Layout c start s done cur) : rbytes c s = c.erasesize - s.ofs := by
  have hlt : s.ofs < c.erasesize := by
    rw [h.holds.ofs]
    exact h.room
  rw [rbytes, Nat.mod_eq_of_lt hlt]

include hc in
theorem Layout.makeRoom (h : Layout c start s done (some ns)) :
    ∃ s' len done' ns', Jffs2.makeRoom c 2 s = some (s', len) ∧ Layout c start s' done' (some ns') ∧
      s'.ofs + 68 + len ≤ c.erasesize := by
  have hlarge := hc.large
  have hrbytes := h.rbytes_eq
  rw [Jffs2.makeRoom]
  by_cases hroom : 128 < rbytes c s - 68
  · refine ⟨s, rbytes c s - 68, done, ns, if_pos hroom, h, ?_⟩
    omega
  · -- the next block has room
    have hnext := (h.padBlock hc).prep hc
    have hrbytes' := hnext.rbytes_eq
    have hofs : (prepEraseblock c (pad c c.erasesize s)).ofs = 12 := by
      rw [hnext.holds.ofs]
      show (blockPrefix c []).length = 12
      rw [blockPrefix_nil, cleanMarker_length]
    rw [hofs] at hrbytes'
    have hroom' : 128 < rbytes c (prepEraseblock c (pad c c.erasesize s)) - 68 := by omega
    refine ⟨_, rbytes c (prepEraseblock c (pad c c.erasesize s)) - 68, _, _, ?_, hnext, ?_⟩
    · simp only [if_neg hroom]
      rw [Jffs2.makeRoom]
      exact if_pos hroom'
    · rw [hofs]
      omega

include hc in
theorem Layout.addChunk (h : Layout c start s done (some ns)) (n : Inode)
    (hfit : s.ofs + 68 + n.data.length ≤ c.erasesize) :
    ∃ done' ns', Layout c start (Jffs2.addChunk c n s) done' (some ns') := by
  have h' : Layout c start { s with lastVersion := n.version } done (some ns) :=
    ⟨⟨h.holds.buf, h.holds.ofs, h.holds.bytes⟩, h.room, h.device, h.fits, h.emitted⟩
  obtain ⟨done', cur', hlayout, -⟩ := h'.addInode hc n hfit rfl
  exact ⟨done', cur'.getD [], hlayout.prep hc⟩

include hc in
/-- The loop over the file ends, with all blocks laid out. -/
theorem Layout.addChunks (ri : Inode) {fuel fOffset : ℕ} {rest : List UInt8} (hfuel : rest.length < fuel)
    (h : Layout c start s done (some ns)) :
    ∃ s' done' ns', Jffs2.addChunks c ri fuel fOffset rest s = some s' ∧ Layout c start s' done' (some ns') := by
  induction fuel generalizing fOffset rest s done ns with
  | zero => omega
  | succ fuel ih =>
    obtain ⟨s₁, len, done₁, ns₁, hroom, h₁, hfit⟩ := h.makeRoom hc
    rw [Jffs2.addChunks, hroom, Option.bind_some]
    by_cases hdata : rest.take (min len 4096) = []
    · exact ⟨s₁, done₁, ns₁, if_pos hdata, h₁⟩
    · simp only [if_neg hdata]
      have hlen : (rest.take (min len 4096)).length ≤ len := by
        rw [List.length_take]
        omega
      have hpos : 0 < (rest.take (min len 4096)).length := List.length_pos_of_ne_nil hdata
      have hpos' : (rest.take (min len 4096)).length ≤ rest.length := by
        rw [List.length_take]
        omega
      obtain ⟨done₂, ns₂, h₂⟩ := h₁.addChunk hc (ri.chunk ((s₁.lastVersion + 1) % 2 ^ 32) fOffset
        (rest.take (min len 4096))) (by
          show s₁.ofs + 68 + (rest.take (min len 4096)).length ≤ _
          omega)
      apply ih _ h₂
      rw [List.length_drop]
      omega

end Appending

end Neufbox.Jffs2
