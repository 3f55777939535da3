import Neufbox.Library.Fallible
import Neufbox.Srec.Text

/-! # What srec2bin preserves

The records the tool writes are the maximal runs of consecutive addresses among the S3 bytes. That
comes out right unless the merging test takes the first byte for the continuation of a record that is
not open, takes the program start for one more byte of the last record, or an S5 record stops the
program; and a run of `2 ^ 32` bytes has no length word. -/
namespace Neufbox.Srec
open Library.Fallible Memory ByteStore WrapArith Runs
set_option autoImplicit false
set_option maxHeartbeats 250000
set_option maxRecDepth 120000

/-! ## Runs of addresses -/

def follows (x y : ℕ × UInt8) : Bool := y.1 == (x.1 + 1) % 2 ^ 32

def recordOfRun (run : List (ℕ × UInt8)) : BinRecord := ⟨(run.headD (0, 0)).1, run.map Prod.snd⟩

theorem bytesAt_length (a : ℕ) (bs : List UInt8) : (bytesAt a bs).length = bs.length := by
  induction bs generalizing a with
  | nil => rfl
  | cons b bs ih => rw [bytesAt, List.length_cons, ih, List.length_cons]

theorem bytesAt_isChain (a : ℕ) (bs : List UInt8) : (bytesAt a bs).IsChain fun x y => follows x y := by
  induction bs generalizing a with
  | nil => exact List.isChain_nil
  | cons b bs ih =>
    rw [bytesAt, List.isChain_cons]
    refine ⟨?_, ih _⟩
    intro y hy
    cases bs with
    | nil => cases hy
    | cons b' bs =>
      cases hy
      simp [follows]

theorem bytesAt_of_isChain (x : ℕ × UInt8) (xs : List (ℕ × UInt8))
    (h : (x :: xs).IsChain fun x y => follows x y) : bytesAt x.1 ((x :: xs).map Prod.snd) = x :: xs := by
  induction xs generalizing x with
  | nil => rfl
  | cons y ys ih =>
    rw [List.isChain_cons] at h
    have hy : y.1 = (x.1 + 1) % 2 ^ 32 := by simpa [follows] using h.1 y rfl
    have htail := ih y h.2
    rw [List.map_cons, bytesAt, ← hy, htail]

theorem recordOfRun_items {run : List (ℕ × UInt8)} (hne : run ≠ [])
    (h : run.IsChain fun x y => follows x y) : (recordOfRun run).items = assignments run := by
  cases run with
  | nil => exact absurd rfl hne
  | cons x xs =>
    show (if (x :: xs).map Prod.snd = [] then _ else assignments (bytesAt x.1 ((x :: xs).map Prod.snd))) = _
    rw [if_neg (by simp), bytesAt_of_isChain x xs h]

/-- The number of times the address test fails. -/
def breaks : ℕ → List (ℕ × UInt8) → ℕ
  | _, [] => 0
  | prev, x :: xs => (if x.1 ≠ (prev + 1) % 2 ^ 32 then 1 else 0) + breaks x.1 xs

theorem breaks_runs (x : ℕ × UInt8) (xs : List (ℕ × UInt8)) :
    breaks x.1 xs + 1 = ((x :: xs).splitBy follows).length := by
  induction xs generalizing x with
  | nil => rfl
  | cons y ys ih =>
    have hx : [x].splitBy follows = [] ++ [[x]] := rfl
    have hy : (y :: ys).splitBy follows ≠ [] := List.splitBy_ne_nil.mpr (List.cons_ne_nil y ys)
    rw [breaks, add_assoc, ih y]
    show _ = (([x] ++ y :: ys).splitBy follows).length
    by_cases hxy : follows x y
    · obtain ⟨h, t, hht⟩ := List.exists_cons_of_ne_nil hy
      have hjoin : ∀ x' ∈ [x].getLast?, ∀ y' ∈ (y :: ys).head?, follows x' y' = true := by
        intro x' hx' y' hy'
        cases hx'
        cases hy'
        exact hxy
      rw [splitBy_append_joined hx hht hjoin, hht, if_neg (by simpa [follows] using hxy)]
      simp
    · have hbreak : ∀ x' ∈ [x].getLast?, ∀ y' ∈ (y :: ys).head?, follows x' y' = false := by
        intro x' hx' y' hy'
        cases hx'
        cases hy'
        simpa using hxy
      rw [List.splitBy_append hbreak, hx, if_pos (by simpa [follows] using hxy), List.length_append]
      rfl

/-! ## How long the output gets -/

/-- The length of the file once the open record is ended. -/
def Writer.size (w : Writer) : ℕ := w.out.length + if w.recStart then 4 else 0

namespace Writer

theorem binRecEnd_length {w : Writer} (h : 4 ≤ w.out.length) : w.binRecEnd.out.length = w.size := by
  rw [binRecEnd, size]
  split
  · rw [binOut32, List.length_append, leBytes_length, overlay_length (by rw [leBytes_length]; omega)]
  · rfl

theorem size_continueAt {w : Writer} (h : 4 ≤ w.out.length) (a : ℕ) :
    (w.continueAt a).size = w.size + (if a ≠ (w.addressCurrent + 1) % 2 ^ 32 then 12 else 0) ∧
      4 ≤ (w.continueAt a).out.length := by
  rw [continueAt]
  by_cases ha : a = (w.addressCurrent + 1) % 2 ^ 32
  · simp only [ha, ne_eq, not_true, if_false]
    exact ⟨rfl, h⟩
  · simp only [ha, ne_eq, not_false_eq_true, if_true]
    have hlen : (w.binRecEnd.binRecStart a).out.length = w.size + 8 := by
      simp only [binRecStart, binOut32, List.length_append, leBytes_length, binRecEnd_length h]
    refine ⟨?_, ?_⟩
    · show (w.binRecEnd.binRecStart a).out.length + 4 = _
      rw [hlen]
    · show 4 ≤ (w.binRecEnd.binRecStart a).out.length
      rw [hlen]
      omega

theorem size_binRecOutByte {w : Writer} (h : 4 ≤ w.out.length) (a : ℕ) (b : UInt8) :
    (w.binRecOutByte a b).size = w.size + (if a ≠ (w.addressCurrent + 1) % 2 ^ 32 then 12 else 0) + 1 ∧
      4 ≤ (w.binRecOutByte a b).out.length := by
  obtain ⟨hsize, hlen⟩ := size_continueAt h a
  have hout : (w.binRecOutByte a b).out = (w.continueAt a).out ++ [b] := rfl
  have hrec : (w.binRecOutByte a b).recStart = (w.continueAt a).recStart := rfl
  rw [size] at hsize
  rw [size, hout, hrec, List.length_append, List.length_singleton]
  omega

end Writer

theorem writeBytes_addressCurrent (w : Writer) (bs : List (ℕ × UInt8)) :
    (writeBytes w bs).addressCurrent = (bs.getLast?.map Prod.fst).getD w.addressCurrent := by
  induction bs using List.reverseRecOn with
  | nil => rfl
  | append_singleton bs x _ =>
    rw [writeBytes, List.foldl_append, List.getLast?_concat]
    rfl

theorem size_writeBytes {w : Writer} (h : 4 ≤ w.out.length) (bs : List (ℕ × UInt8)) :
    (writeBytes w bs).size = w.size + bs.length + 12 * breaks w.addressCurrent bs ∧
      4 ≤ (writeBytes w bs).out.length := by
  induction bs generalizing w with
  | nil => exact ⟨rfl, h⟩
  | cons x xs ih =>
    obtain ⟨hsize, hlen⟩ := Writer.size_binRecOutByte h x.1 x.2
    obtain ⟨hsize', hlen'⟩ := ih hlen
    refine ⟨?_, hlen'⟩
    have haddr : (w.binRecOutByte x.1 x.2).addressCurrent = x.1 := rfl
    rw [haddr, hsize] at hsize'
    show (writeBytes (w.binRecOutByte x.1 x.2) xs).size = _
    rw [hsize', List.length_cons, breaks]
    split <;> omega

/-! ## What the output is -/

/-- A record that was started behind `pre` and not ended yet. -/
structure Opened (w : Writer) (pre : List UInt8) (r : BinRecord) : Prop where
  out : w.out = pre ++ (leBytes 0 ++ (leBytes r.address ++ r.data))
  recStart : w.recStart = true
  recLength : w.recLength = r.data.length
  checkSum : w.checkSum = (r.address + byteSum r.data) % 2 ^ 32

section Opened
variable {w : Writer} {pre : List UInt8} {r : BinRecord}

theorem opened_binRecStart (w : Writer) {a : ℕ} (ha : a < 2 ^ 32) : Opened (w.binRecStart a) w.out ⟨a, []⟩ where
  out := by simp [Writer.binRecStart, Writer.binOut32]
  recStart := rfl
  recLength := rfl
  checkSum := (Nat.mod_eq_of_lt ha).symm

theorem Opened.binRecEnd_out (h : Opened w pre r) : w.binRecEnd.out = pre ++ r.encode := by
  have hlen : w.out.length - r.data.length - 4 - 4 = pre.length := by
    rw [h.out]
    simp only [List.length_append, leBytes_length]
    omega
  have hpatch : overlay w.out pre.length (leBytes r.data.length) =
      pre ++ (leBytes r.data.length ++ (leBytes r.address ++ r.data)) := by
    rw [overlay, h.out, List.take_left, leBytes_length, ← List.drop_drop, List.drop_left,
      List.drop_left' (leBytes_length 0)]
  have hsum : wrapSub 32 0 (w.checkSum + w.recLength) = binChecksum r.data.length r.address r.data := by
    rw [binChecksum, h.checkSum, h.recLength, ← wrapSub_mod_right, Nat.mod_add_mod, wrapSub_mod_right]
    congr 1
    omega
  rw [Writer.binRecEnd, if_pos h.recStart]
  show overlay w.out (w.out.length - w.recLength - 4 - 4) (leBytes w.recLength) ++
    leBytes (wrapSub 32 0 (w.checkSum + w.recLength)) = _
  rw [hsum, h.recLength, hlen, hpatch, BinRecord.encode]
  simp only [List.append_assoc]

theorem Opened.addByte (h : Opened w pre r) (a : ℕ) (b : UInt8) (hlen : r.data.length + 1 < 2 ^ 32) :
    Opened ({ w with addressCurrent := a, checkSum := (w.checkSum + b.toNat) % 2 ^ 32 }.binOut8 b) pre
      ⟨r.address, r.data ++ [b]⟩ where
  out := by
    show w.out ++ [b] = _
    rw [h.out]
    simp
  recStart := h.recStart
  recLength := by
    show (w.recLength + 1) % 2 ^ 32 = _
    rw [h.recLength, Nat.mod_eq_of_lt hlen, List.length_append, List.length_singleton]
  checkSum := by
    show (w.checkSum + b.toNat) % 2 ^ 32 = _
    rw [h.checkSum, Nat.mod_add_mod, byteSum_append, byteSum_cons, byteSum_nil,
      Nat.add_zero, Nat.add_assoc]

/-- A byte at another address ends the record and starts the next. -/
theorem Opened.nextRecord (h : w.binRecEnd.out = pre) {x : ℕ × UInt8} (hx : x.1 < 2 ^ 32)
    (hbreak : x.1 ≠ (w.addressCurrent + 1) % 2 ^ 32) :
    Opened (w.binRecOutByte x.1 x.2) pre (recordOfRun [x]) := by
  have hopen := opened_binRecStart w.binRecEnd hx
  rw [h] at hopen
  have hbyte := hopen.addByte x.1 x.2 (by norm_num)
  rw [Writer.binRecOutByte, Writer.continueAt]
  simp only [if_pos hbreak]
  exact hbyte

theorem Opened.sameRecord {c : List (ℕ × UInt8)} (hc : c ≠ []) (h : Opened w pre (recordOfRun c))
    {x : ℕ × UInt8} (hlen : c.length + 1 < 2 ^ 32) (hnext : x.1 = (w.addressCurrent + 1) % 2 ^ 32) :
    Opened (w.binRecOutByte x.1 x.2) pre (recordOfRun (c ++ [x])) := by
  have hbyte := h.addByte x.1 x.2 (by simpa [recordOfRun] using hlen)
  have hrun : recordOfRun (c ++ [x]) = ⟨(recordOfRun c).address, (recordOfRun c).data ++ [x.2]⟩ := by
    obtain ⟨y, ys, rfl⟩ := List.exists_cons_of_ne_nil hc
    simp [recordOfRun]
  rw [Writer.binRecOutByte, Writer.continueAt, hrun]
  simp only [if_neg (not_not.mpr hnext)]
  exact hbyte

end Opened

/-- After the data, the runs before the last one are written and the last one is open. -/
theorem writeBytes_opened {w : Writer} (hw : w.recStart = false) {bs : List (ℕ × UInt8)} (hne : bs ≠ [])
    (haddr : ∀ x ∈ bs, x.1 < 2 ^ 32) (hfirst : ∀ x ∈ bs.head?, x.1 ≠ (w.addressCurrent + 1) % 2 ^ 32)
    (hruns : ∀ run ∈ bs.splitBy follows, run.length < 2 ^ 32) :
    ∃ cs c, bs.splitBy follows = cs ++ [c] ∧
      Opened (writeBytes w bs) (w.out ++ encodeRecords (cs.map recordOfRun)) (recordOfRun c) := by
  induction bs using List.reverseRecOn with
  | nil => exact absurd rfl hne
  | append_singleton bs x ih =>
    have hstep : writeBytes w (bs ++ [x]) = (writeBytes w bs).binRecOutByte x.1 x.2 := by
      rw [writeBytes, List.foldl_append]
      rfl
    have hx : x.1 < 2 ^ 32 := haddr x (by simp)
    rw [hstep]
    by_cases hbs : bs = []
    · subst hbs
      refine ⟨[], [x], rfl, ?_⟩
      apply Opened.nextRecord _ hx (hfirst x rfl)
      show w.binRecEnd.out = w.out ++ []
      rw [Writer.binRecEnd, hw, List.append_nil]
      rfl
    · obtain ⟨z, hz⟩ : ∃ z, bs.getLast? = some z := ⟨_, List.getLast?_eq_some_getLast hbs⟩
      have hprev : (writeBytes w bs).addressCurrent = z.1 := by
        rw [writeBytes_addressCurrent, hz]
        rfl
      have hhead : ∀ y ∈ bs.head?, y.1 ≠ (w.addressCurrent + 1) % 2 ^ 32 := by
        intro y hy
        apply hfirst y
        rwa [List.head?_append_of_ne_nil _ hbs]
      have hbsaddr : ∀ y ∈ bs, y.1 < 2 ^ 32 := fun y hy => haddr y (List.mem_append_left _ hy)
      obtain ⟨cs, c, hsplit⟩ : ∃ cs c, bs.splitBy follows = cs ++ [c] := by
        have hrunsne : bs.splitBy follows ≠ [] := List.splitBy_ne_nil.mpr hbs
        exact ⟨_, _, (List.dropLast_append_getLast hrunsne).symm⟩
      rw [splitBy_concat x hsplit hz] at hruns ⊢
      have hbsruns : ∀ run ∈ bs.splitBy follows, run.length < 2 ^ 32 := by
        intro run hrun
        rw [hsplit] at hrun
        split at hruns
        · rcases List.mem_append.mp hrun with hmem | hmem
          · exact hruns run (List.mem_append_left _ hmem)
          · rw [List.mem_singleton.mp hmem]
            have hlast := hruns (c ++ [x]) (by simp)
            rw [List.length_append] at hlast
            omega
        · exact hruns run (List.mem_append_left _ hrun)
      obtain ⟨cs', c', hsplit', hopen⟩ := ih hbs hbsaddr hhead hbsruns
      obtain ⟨rfl, hcc⟩ := List.append_inj' (hsplit'.symm.trans hsplit) rfl
      obtain rfl : c' = c := by simpa using hcc
      have hc : c' ≠ [] := List.ne_nil_of_mem_splitBy (r := follows) (l := bs) (by rw [hsplit]; simp)
      by_cases hzx : follows z x
      · rw [if_pos hzx] at hruns ⊢
        refine ⟨cs', c' ++ [x], rfl, ?_⟩
        have hlen := hruns (c' ++ [x]) (by simp)
        rw [List.length_append, List.length_singleton] at hlen
        apply hopen.sameRecord hc hlen
        rw [hprev]
        simpa [follows] using hzx
      · rw [if_neg hzx]
        refine ⟨cs' ++ [c'], [x], rfl, ?_⟩
        apply Opened.nextRecord _ hx
        · rw [hprev]
          simpa [follows] using hzx
        · rw [hopen.binRecEnd_out]
          simp [encodeRecords]

/-! ## Well-formed files -/

def SRecord.InBody : SRecord → Prop
  | .header _ => True
  | .data _ _ => True
  | .count _ => False
  | .entry _ => False

def SRecord.assigned : SRecord → List (ℕ × UInt8)
  | .data a bs => bytesAt a bs
  | _ => []

def SRecord.isData : SRecord → Bool
  | .data _ _ => true
  | _ => false

/-- The bytes of the S3 records in order, each with its address. -/
def programBytes (body : List SRecord) : List (ℕ × UInt8) := body.flatMap SRecord.assigned

/-- S0 and S3 records, an S5 record or none, and an S7 record, on lines that fit the buffer. -/
structure WellFormed (file : List UInt8) (body : List SRecord) (count : Option ℕ) (entry : ℕ) : Prop where
  records : fileRecords file = some (body ++ (count.map SRecord.count).toList ++ [.entry entry])
  inBody : ∀ r ∈ body, r.InBody
  counted : ∀ n ∈ count, n = body.countP SRecord.isData
  fit : ∀ line ∈ fileLines file, line.length ≤ 255

def Preserved (bigEndian : Bool) (file : List UInt8) (body : List SRecord) (entry : ℕ) : Prop :=
  decode (srec2bin bigEndian file) =
    some (tagOf bigEndian, assignments (programBytes body) ++ [.start entry])

/-- The address the tool has seen last when it comes to the S7 record. -/
def lastAddress (bs : List (ℕ × UInt8)) : ℕ := (bs.getLast?.map Prod.fst).getD 0xFFFFFFFF

structure PreservedWhen (body : List SRecord) (count : Option ℕ) (entry : ℕ) : Prop where
  noCount : count = none ∨ body.countP SRecord.isData = 0
  firstAddress : ∀ x ∈ (programBytes body).head?, x.1 ≠ 0
  entryApart : entry ≠ (lastAddress (programBytes body) + 1) % 2 ^ 32
  runs : ∀ run ∈ (programBytes body).splitBy follows, run.length < 2 ^ 32

theorem applyRecords_body (body rest : List SRecord) (hbody : ∀ r ∈ body, r.InBody) (w : Writer) (k : ℕ) :
    applyRecords ⟨w, k % 2 ^ 32⟩ (body ++ rest) =
      applyRecords ⟨writeBytes w (programBytes body), (k + body.countP SRecord.isData) % 2 ^ 32⟩ rest := by
  induction body generalizing w k with
  | nil => rfl
  | cons r body ih =>
    have htail := ih fun q hq => hbody q (List.mem_cons_of_mem _ hq)
    have hr := hbody r List.mem_cons_self
    cases r with
    | header data => exact htail w k
    | data a bs =>
      have hwrite : writeBytes (writeBytes w (bytesAt a bs)) (programBytes body) =
          writeBytes w (programBytes (.data a bs :: body)) := by
        have hcons : programBytes (.data a bs :: body) = bytesAt a bs ++ programBytes body := List.flatMap_cons
        rw [hcons, writeBytes, writeBytes, writeBytes, ← List.foldl_append]
      have h := htail (writeBytes w (bytesAt a bs)) (k + 1)
      rw [hwrite, Nat.add_assoc, Nat.add_comm 1] at h
      rw [List.countP_cons_of_pos rfl, ← h, ← Nat.mod_add_mod]
      rfl
    | count n => exact hr.elim
    | entry a => exact hr.elim

/-- The writer after the data of a body. -/
def dataWriter (bigEndian : Bool) (body : List SRecord) : Writer :=
  writeBytes (initialState (tagOf bigEndian)).writer (programBytes body)

section Runs
variable {bigEndian : Bool} {file : List UInt8} {body : List SRecord} {count : Option ℕ} {entry : ℕ}

theorem srec2bin_passes (h : WellFormed file body count entry)
    (hpass : count = none ∨ body.countP SRecord.isData = 0) : srec2bin bigEndian file =
      ((dataWriter bigEndian body).binRecOutProgramStart entry).binRecEnd.out := by
  rw [srec2bin_fileRecords bigEndian h.fit h.records, List.append_assoc]
  show (applyRecords ⟨(initialState (tagOf bigEndian)).writer, 0 % 2 ^ 32⟩ _).writer.binRecEnd.out = _
  rw [applyRecords_body body _ h.inBody]
  cases count with
  | none => rfl
  | some n =>
    have hzero : body.countP SRecord.isData = 0 := hpass.resolve_left (by simp)
    obtain rfl : n = 0 := (h.counted n rfl).trans hzero
    rw [hzero]
    show (applyRecords _ (.count 0 :: [.entry entry])).writer.binRecEnd.out = _
    rw [applyRecords, applyRecord, if_neg (by simp)]
    rfl

/-- A correct S5 record behind S3 records stops the program. -/
theorem srec2bin_stops (h : WellFormed file body count entry)
    (hstop : ¬ (count = none ∨ body.countP SRecord.isData = 0)) :
    srec2bin bigEndian file = (dataWriter bigEndian body).binRecEnd.out := by
  rw [srec2bin_fileRecords bigEndian h.fit h.records, List.append_assoc]
  show (applyRecords ⟨(initialState (tagOf bigEndian)).writer, 0 % 2 ^ 32⟩ _).writer.binRecEnd.out = _
  rw [applyRecords_body body _ h.inBody]
  push Not at hstop
  obtain ⟨n, rfl⟩ := Option.ne_none_iff_exists'.mp hstop.1
  have hor : n ||| (0 + body.countP SRecord.isData) % 2 ^ 32 ≠ 0 := by
    rw [Ne, Nat.or_eq_zero_iff, h.counted n rfl]
    exact fun hzero => hstop.2 hzero.1
  show (applyRecords _ (.count n :: [.entry entry])).writer.binRecEnd.out = _
  rw [applyRecords, applyRecord, if_pos hor]
  rfl

theorem programBytes_address (h : WellFormed file body count entry) : ∀ x ∈ programBytes body, x.1 < 2 ^ 32 := by
  have hbytes : ∀ (bs : List UInt8) (a : ℕ), a < 2 ^ 32 → ∀ x ∈ bytesAt a bs, x.1 < 2 ^ 32 := by
    intro bs
    induction bs with
    | nil => simp [bytesAt]
    | cons b bs ih =>
      intro a ha x hx
      rcases List.mem_cons.mp hx with rfl | hx
      · exact ha
      · exact ih _ (Nat.mod_lt _ (by norm_num)) x hx
  intro x hx
  obtain ⟨r, hr, hxr⟩ := List.mem_flatMap.mp hx
  cases r with
  | data a bs =>
    obtain ⟨line, _, hline⟩ := mem_of_mapM h.records
      (List.mem_append_left _ (List.mem_append_left _ hr))
    exact hbytes bs a (lineRecord_address (Or.inl ⟨bs, hline⟩)) x hxr
  | header data => simp [SRecord.assigned] at hxr
  | count n => simp [SRecord.assigned] at hxr
  | entry e => simp [SRecord.assigned] at hxr

theorem entry_address (h : WellFormed file body count entry) : entry < 2 ^ 32 := by
  obtain ⟨line, _, hline⟩ := mem_of_mapM h.records (List.mem_append_right _ List.mem_cons_self)
  exact lineRecord_address (Or.inr hline)

end Runs

/-! ## The exact condition -/

/-- The records behind a decoded program: data records whose bytes are the program's, and the start. -/
theorem items_of_program {rs : List BinRecord} {bs : List (ℕ × UInt8)} {entry : ℕ}
    (h : rs.flatMap BinRecord.items = assignments bs ++ [.start entry]) :
    ∃ ds : List BinRecord, rs.length = ds.length + 1 ∧
      (rs.map fun r => 12 + r.data.length).sum = 12 * (ds.length + 1) + bs.length ∧
      (∀ d ∈ ds, d ∈ rs ∧ d.data ≠ []) ∧ (ds.map fun d => bytesAt d.address d.data).flatten = bs := by
  induction rs generalizing bs with
  | nil => simp [assignments] at h
  | cons r rs ih =>
    have hstart : ∀ a, Item.start a ∉ assignments bs := by simp [assignments]
    rw [List.flatMap_cons, BinRecord.items] at h
    by_cases hr : r.data = []
    · -- the start is the last item, so this is the last record
      rw [if_pos hr, List.singleton_append] at h
      have hbs : bs = [] := by
        cases bs with
        | nil => rfl
        | cons b bs => cases h
      subst hbs
      obtain ⟨_, hnil⟩ := List.cons.inj (h : _ = Item.start entry :: [])
      have hrs : rs = [] := by
        cases rs with
        | nil => rfl
        | cons q qs =>
          rw [List.flatMap_cons, List.append_eq_nil_iff, BinRecord.items] at hnil
          split at hnil
          · exact absurd hnil.1 (by simp)
          · next hq =>
            have hlen := congrArg List.length hnil.1
            rw [assignments, List.length_map, bytesAt_length, List.length_nil, List.length_eq_zero_iff] at hlen
            exact absurd hlen hq
      subst hrs
      exact ⟨[], rfl, by simp [hr], by simp, rfl⟩
    · rw [if_neg hr] at h
      obtain ⟨more, hitems, hmore⟩ : ∃ more, assignments bs = assignments (bytesAt r.address r.data) ++ more ∧
          rs.flatMap BinRecord.items = more ++ [.start entry] := by
        rcases List.append_eq_append_iff.mp h with ⟨more, hbs, hrest⟩ | ⟨more, hdata, hrest⟩
        · exact ⟨more, hbs, hrest⟩
        · cases more with
          | nil => exact ⟨[], by rw [hdata]; simp, by simpa using hrest.symm⟩
          | cons item more =>
            obtain ⟨rfl, _⟩ := List.cons.inj hrest
            have hmem : Item.start entry ∈ assignments (bytesAt r.address r.data) := by
              rw [hdata]
              simp
            simp [assignments] at hmem
      obtain ⟨xs, ys, rfl, hxs, rfl⟩ := List.map_eq_append_iff.mp hitems
      have hinj : Function.Injective fun p : ℕ × UInt8 => Item.byte p.1 p.2 := by
        intro p q hpq
        injection hpq with haddress hvalue
        exact Prod.ext haddress hvalue
      obtain rfl := (List.map_injective_iff.mpr hinj) hxs
      obtain ⟨ds, hlen, hsum, hds, hflat⟩ := ih hmore
      refine ⟨r :: ds, ?_, ?_, ?_, ?_⟩
      · rw [List.length_cons, hlen, List.length_cons]
      · rw [List.map_cons, List.sum_cons, hsum, List.length_append, bytesAt_length, List.length_cons]
        omega
      · intro d hd
        rcases List.mem_cons.mp hd with rfl | hd
        · exact ⟨List.mem_cons_self, hr⟩
        · exact ⟨List.mem_cons_of_mem _ (hds d hd).1, (hds d hd).2⟩
      · rw [List.map_cons, List.flatten_cons, hflat]

/-- What the length of a file that decodes to a program says about the runs of its bytes. -/
theorem decode_runs {file : List UInt8} {tag entry : ℕ} {bs : List (ℕ × UInt8)}
    (h : decode file = some (tag, assignments bs ++ [.start entry])) :
    ∃ n, file.length = 4 + bs.length + 12 * (n + 1) ∧ (bs.splitBy follows).length ≤ n ∧
      ((bs.splitBy follows).length = n → ∀ run ∈ bs.splitBy follows, run.length < 2 ^ 32) := by
  rw [decode] at h
  split at h
  · cases h
  · next hlong =>
    rw [Option.map_eq_some_iff] at h
    obtain ⟨items, hitems, heq⟩ := h
    obtain ⟨rs, hrs, hlen, hshort⟩ := decodeRecords_sound hitems
    obtain rfl : items = assignments bs ++ [.start entry] := congrArg Prod.snd heq
    obtain ⟨ds, _, hsum, hds, hflat⟩ := items_of_program hrs.symm
    rw [List.length_drop, hsum] at hlen
    have hne : [] ∉ ds.map fun d => bytesAt d.address d.data := by
      intro hmem
      obtain ⟨d, hd, hnil⟩ := List.mem_map.mp hmem
      have hdlen := congrArg List.length hnil
      rw [bytesAt_length, List.length_nil, List.length_eq_zero_iff] at hdlen
      exact (hds d hd).2 hdlen
    have hchain : ∀ p ∈ ds.map fun d => bytesAt d.address d.data, p.IsChain fun x y => follows x y := by
      intro p hp
      obtain ⟨d, _, rfl⟩ := List.mem_map.mp hp
      exact bytesAt_isChain _ _
    obtain ⟨hle, heq⟩ := splitBy_least hne hchain
    rw [hflat, List.length_map] at hle heq
    refine ⟨ds.length, by omega, hle, ?_⟩
    intro hruns run hrun
    rw [heq hruns] at hrun
    obtain ⟨d, hd, rfl⟩ := List.mem_map.mp hrun
    rw [bytesAt_length]
    exact hshort d (hds d hd).1

section Condition
variable {bigEndian : Bool} {file : List UInt8} {body : List SRecord} {count : Option ℕ} {entry : ℕ}

theorem dataWriter_addressCurrent (bigEndian : Bool) (body : List SRecord) :
    (dataWriter bigEndian body).addressCurrent = lastAddress (programBytes body) :=
  writeBytes_addressCurrent _ _

theorem dataWriter_size (bigEndian : Bool) (body : List SRecord) :
    (dataWriter bigEndian body).size = 4 + (programBytes body).length + 12 * breaks 0xFFFFFFFF (programBytes body) ∧
      4 ≤ (dataWriter bigEndian body).out.length :=
  size_writeBytes (w := (initialState (tagOf bigEndian)).writer) (le_refl 4) (programBytes body)

theorem breaks_initial (bs : List (ℕ × UInt8)) :
    breaks 0xFFFFFFFF bs ≤ (bs.splitBy follows).length ∧
      (breaks 0xFFFFFFFF bs = (bs.splitBy follows).length → ∀ x ∈ bs.head?, x.1 ≠ 0) := by
  cases bs with
  | nil => exact ⟨le_refl 0, fun _ x hx => by cases hx⟩
  | cons x xs =>
    have hzero : (0xFFFFFFFF + 1) % 2 ^ 32 = 0 := by norm_num
    rw [← breaks_runs x xs, breaks, hzero]
    split
    · next hx =>
      refine ⟨by omega, ?_⟩
      intro _ y hy
      cases hy
      exact hx
    · refine ⟨by omega, ?_⟩
      intro h
      omega

theorem preserved_only_when (h : WellFormed file body count entry) (hp : Preserved bigEndian file body entry) :
    PreservedWhen body count entry := by
  obtain ⟨n, hlen, hle, hruns⟩ := decode_runs hp
  obtain ⟨hsize, hout⟩ := dataWriter_size bigEndian body
  obtain ⟨hbreaks, hfirst⟩ := breaks_initial (programBytes body)
  by_cases hpass : count = none ∨ body.countP SRecord.isData = 0
  · obtain ⟨hstart, hout'⟩ := Writer.size_continueAt hout entry
    rw [dataWriter_addressCurrent] at hstart
    rw [srec2bin_passes h hpass, Writer.binRecOutProgramStart, Writer.binRecEnd_length hout', hstart, hsize] at hlen
    by_cases hentry : entry = (lastAddress (programBytes body) + 1) % 2 ^ 32
    · rw [if_neg (not_not.mpr hentry)] at hlen
      omega
    · rw [if_pos hentry] at hlen
      exact ⟨hpass, hfirst (by omega), hentry, hruns (by omega)⟩
  · rw [srec2bin_stops h hpass, Writer.binRecEnd_length hout, hsize] at hlen
    omega

theorem preserved_when (h : WellFormed file body count entry) (hw : PreservedWhen body count entry) :
    Preserved bigEndian file body entry := by
  have hentry := entry_address h
  have hzero : (0xFFFFFFFF + 1) % 2 ^ 32 = 0 := by norm_num
  -- the records of the data are ended when the program start comes
  have hdata : (dataWriter bigEndian body).binRecEnd.out = leBytes (tagOf bigEndian) ++
      encodeRecords (((programBytes body).splitBy follows).map recordOfRun) := by
    by_cases hne : programBytes body = []
    · rw [dataWriter, hne, List.splitBy_nil, List.map_nil]
      rfl
    · have hfirst : ∀ x ∈ (programBytes body).head?, x.1 ≠ (0xFFFFFFFF + 1) % 2 ^ 32 := by
        rw [hzero]
        exact hw.firstAddress
      obtain ⟨cs, c, hsplit, hopen⟩ := writeBytes_opened (w := (initialState (tagOf bigEndian)).writer) rfl hne
        (programBytes_address h) hfirst hw.runs
      rw [dataWriter, hopen.binRecEnd_out, hsplit, List.map_append]
      simp [encodeRecords, initialState, Writer.binOut32]
  have hstart : (dataWriter bigEndian body).binRecOutProgramStart entry =
      { (dataWriter bigEndian body).binRecEnd.binRecStart entry with addressCurrent := entry } := by
    have hapart := hw.entryApart
    rw [← dataWriter_addressCurrent bigEndian body] at hapart
    rw [Writer.binRecOutProgramStart, Writer.continueAt]
    simp only [if_pos hapart]
  have hopened := opened_binRecStart (dataWriter bigEndian body).binRecEnd hentry
  have hout : srec2bin bigEndian file = leBytes (tagOf bigEndian) ++
      encodeRecords (((programBytes body).splitBy follows).map recordOfRun ++ [⟨entry, []⟩]) := by
    have hend : ((dataWriter bigEndian body).binRecOutProgramStart entry).binRecEnd.out =
        (dataWriter bigEndian body).binRecEnd.out ++ (BinRecord.mk entry []).encode := by
      rw [hstart]
      exact Opened.binRecEnd_out ⟨hopened.out, hopened.recStart, hopened.recLength, hopened.checkSum⟩
    rw [srec2bin_passes h hw.noCount, hend, hdata]
    simp [encodeRecords]
  have hvalid : ∀ r ∈ ((programBytes body).splitBy follows).map recordOfRun ++ [⟨entry, []⟩], r.Valid := by
    intro r hr
    rcases List.mem_append.mp hr with hr | hr
    · obtain ⟨run, hrun, rfl⟩ := List.mem_map.mp hr
      refine ⟨?_, by simpa [recordOfRun] using hw.runs run hrun⟩
      obtain ⟨x, xs, rfl⟩ := List.exists_cons_of_ne_nil (List.ne_nil_of_mem_splitBy hrun)
      apply programBytes_address h x
      rw [← List.flatten_splitBy follows (programBytes body)]
      exact List.mem_flatten_of_mem hrun List.mem_cons_self
    · rw [List.mem_singleton.mp hr]
      exact ⟨hentry, by norm_num⟩
  have htag : tagOf bigEndian < 2 ^ 32 := by cases bigEndian <;> decide
  have hitems : (((programBytes body).splitBy follows).map recordOfRun).flatMap BinRecord.items =
      assignments (programBytes body) := by
    have hrun : ∀ run ∈ (programBytes body).splitBy follows, (recordOfRun run).items = assignments run :=
      fun run hrun => recordOfRun_items (List.ne_nil_of_mem_splitBy hrun) (List.isChain_of_mem_splitBy hrun)
    rw [List.flatMap_map, List.flatMap_congr hrun]
    nth_rewrite 2 [← List.flatten_splitBy follows (programBytes body)]
    rw [assignments, List.map_flatten, List.flatMap_def]
    rfl
  rw [Preserved, hout, decode_encodeRecords htag _ hvalid, List.flatMap_append, hitems]
  rfl

end Condition

/-- The binary decodes to the program exactly when no S5 record follows S3 records, the first byte is
not at address zero, the program start does not come right behind the last byte, and every run of
consecutive addresses has a length word. -/
theorem srec2bin_preserves_iff (bigEndian : Bool) {file : List UInt8} {body : List SRecord} {count : Option ℕ}
    {entry : ℕ} (h : WellFormed file body count entry) :
    Preserved bigEndian file body entry ↔ PreservedWhen body count entry :=
  ⟨preserved_only_when h, preserved_when h⟩

def asciiBytes (s : String) : List UInt8 := s.toList.map fun c => UInt8.ofNat c.toNat

/-- A header, two bytes at `0x80001000`, and the program start there. -/
def smallFile : List UInt8 :=
  asciiBytes "S00600004844521B\r\nS30780001000AABB03\r\nS705800010006A\r\n"

theorem smallFile_wellFormed :
    WellFormed smallFile [.header [0x48, 0x44, 0x52], .data 0x80001000 [0xAA, 0xBB]] none 0x80001000 where
  records := by decide +kernel
  inBody := by simp [SRecord.InBody]
  counted := by simp
  fit := by decide +kernel

theorem srec2bin_preserves_small :
    Preserved false smallFile [.header [0x48, 0x44, 0x52], .data 0x80001000 [0xAA, 0xBB]] 0x80001000 := by
  apply (srec2bin_preserves_iff false smallFile_wellFormed).mpr
  exact ⟨Or.inl rfl, by simp [programBytes, SRecord.assigned, bytesAt], by decide +kernel, by decide +kernel⟩

/-- One byte at address zero. -/
def zeroFile : List UInt8 := asciiBytes "S30600000000AA4F\nS705800000007A\n"

theorem srec2bin_loses_address_zero :
    WellFormed zeroFile [.data 0 [0xAA]] none 0x80000000 ∧ ¬ Preserved false zeroFile [.data 0 [0xAA]] 0x80000000 := by
  refine ⟨⟨by decide +kernel, by simp [SRecord.InBody], by simp, by decide +kernel⟩, ?_⟩
  show decode (srec2bin false zeroFile) ≠ some (0xFEEDFA42, [.byte 0 0xAA, .start 0x80000000])
  decide +kernel

end Neufbox.Srec
