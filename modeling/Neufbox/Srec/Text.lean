import Mathlib.Data.List.TakeWhile
import Neufbox.Srec.Tool

/-! # S-record text

A well-formed file in its own terms: lines `S`, a type, and pairs of hexadecimal digits for a count, that
many bytes, the last of them a checksum. `fileRecords` parses a file this way; the rest of the module
shows what `readline` and `srecLine` make of it. -/
namespace Neufbox.Srec
open Blocks Memory
set_option autoImplicit false
set_option maxHeartbeats 250000
set_option maxRecDepth 120000

/-! ## Records -/

inductive SRecord
  | header (data : List UInt8)
  | data (address : ℕ) (bytes : List UInt8)
  | count (n : ℕ)
  | entry (address : ℕ)
  deriving DecidableEq

def hexDigit (c : UInt8) : Option ℕ :=
  if 48 ≤ c ∧ c ≤ 57 then some (c.toNat - 48)
  else if 65 ≤ c ∧ c ≤ 70 then some (c.toNat - 65 + 10)
  else if 97 ≤ c ∧ c ≤ 102 then some (c.toNat - 97 + 10)
  else none

def hexBytes : List UInt8 → Option (List UInt8)
  | [] => some []
  | [_] => none
  | c :: d :: rest => do
      let h ← hexDigit c
      let l ← hexDigit d
      let bs ← hexBytes rest
      some (UInt8.ofNat (16 * h + l) :: bs)

/-- The fields between count and checksum. The address of an S0 record is zero. -/
def recordOf (type : Char) (fields : List UInt8) : Option SRecord :=
  match type with
  | '0' => if fields.take 2 = [0, 0] then some (.header (fields.drop 2)) else none
  | '3' => if 4 ≤ fields.length then some (.data (beWord (fields.take 4)) (fields.drop 4)) else none
  | '5' => if fields.length = 2 then some (.count (beWord fields)) else none
  | '7' => if fields.length = 4 then some (.entry (beWord fields)) else none
  | _ => none

def lineRecord : List UInt8 → Option SRecord
  | s :: type :: digits =>
      if s = 83 then
        match hexBytes digits with
        | some (count :: body) =>
            if body.length = count.toNat ∧ byteSum (count :: body) % 256 = 255 then
              recordOf (Char.ofNat type.toNat) body.dropLast
            else none
        | _ => none
      else none
  | _ => none

/-! ## Files -/

def stripReturn (line : List UInt8) : List UInt8 := if line.getLast? = some 13 then line.dropLast else line

/-- The lines of a file, ended by a newline or by carriage return and newline; empty ones say nothing. -/
def fileLines (file : List UInt8) : List (List UInt8) := ((file.splitOn 10).map stripReturn).filter (· ≠ [])

def fileRecords (file : List UInt8) : Option (List SRecord) := (fileLines file).mapM lineRecord

/-! ## Digits -/

theorem hexDigit_spec {c : UInt8} {v : ℕ} (h : hexDigit c = some v) :
    nibble c = v ∧ isxdigit c = true ∧ v < 16 ∧ c ≠ 0 ∧ c ≠ 13 := by
  have hall : ∀ n : Fin 256, ∀ v, hexDigit (UInt8.ofFin n) = some v → nibble (UInt8.ofFin n) = v ∧
      isxdigit (UInt8.ofFin n) = true ∧ v < 16 ∧ UInt8.ofFin n ≠ 0 ∧ UInt8.ofFin n ≠ 13 := by
    have htable : ∀ n : Fin 256, (hexDigit (UInt8.ofFin n)).all (fun v => nibble (UInt8.ofFin n) == v &&
        isxdigit (UInt8.ofFin n) && decide (v < 16) && UInt8.ofFin n != 0 && UInt8.ofFin n != 13) = true := by
      decide +kernel
    intro n v hv
    have hn := htable n
    rw [hv] at hn
    simpa [and_assoc] using hn
  exact hall c.toFin v h

theorem hexBytes_cons {c d : UInt8} {rest bs : List UInt8} (h : hexBytes (c :: d :: rest) = some bs) :
    ∃ hi lo tail, hexDigit c = some hi ∧ hexDigit d = some lo ∧ hexBytes rest = some tail ∧
      bs = UInt8.ofNat (16 * hi + lo) :: tail := by
  simp only [hexBytes, Option.bind_eq_bind, Option.bind_eq_some_iff, Option.some_inj] at h
  obtain ⟨hi, hhi, lo, hlo, tail, htail, rfl⟩ := h
  exact ⟨hi, lo, tail, hhi, hlo, htail, rfl⟩

theorem hexBytes_length {ds bs : List UInt8} (h : hexBytes ds = some bs) : ds.length = 2 * bs.length := by
  induction bs generalizing ds with
  | nil =>
    match ds, h with
    | [], _ => rfl
    | c :: d :: rest, h =>
      obtain ⟨_, _, _, _, _, _, hbs⟩ := hexBytes_cons h
      cases hbs
  | cons b bs ih =>
    match ds, h with
    | c :: d :: rest, h =>
      obtain ⟨_, _, tail, _, _, hrest, hbs⟩ := hexBytes_cons h
      cases hbs
      rw [List.length_cons, List.length_cons, ih hrest, List.length_cons]
      omega

theorem hexBytes_digits {ds bs : List UInt8} (h : hexBytes ds = some bs) :
    ∀ c ∈ ds, isxdigit c = true ∧ c ≠ 0 ∧ c ≠ 13 := by
  induction bs generalizing ds with
  | nil =>
    rw [List.eq_nil_of_length_eq_zero (hexBytes_length h)]
    simp
  | cons b bs ih =>
    match ds, h with
    | c :: d :: rest, h =>
      obtain ⟨hi, lo, tail, hhi, hlo, hrest, hbs⟩ := hexBytes_cons h
      cases hbs
      obtain ⟨_, hc, _, hc0, hc13⟩ := hexDigit_spec hhi
      obtain ⟨_, hd, _, hd0, hd13⟩ := hexDigit_spec hlo
      intro x hx
      rcases List.mem_cons.mp hx with rfl | hx
      · exact ⟨hc, hc0, hc13⟩
      · rcases List.mem_cons.mp hx with rfl | hx
        · exact ⟨hd, hd0, hd13⟩
        · exact ih hrest x hx

theorem hexBytes_take {ds bs : List UInt8} (h : hexBytes ds = some bs) (k : ℕ) :
    hexBytes (ds.take (2 * k)) = some (bs.take k) ∧ hexBytes (ds.drop (2 * k)) = some (bs.drop k) := by
  induction k generalizing ds bs with
  | zero => exact ⟨rfl, h⟩
  | succ k ih =>
    match ds, h with
    | [], h =>
      cases h
      exact ⟨rfl, rfl⟩
    | c :: d :: rest, h =>
      obtain ⟨hi, lo, tail, hhi, hlo, hrest, rfl⟩ := hexBytes_cons h
      obtain ⟨htake, hdrop⟩ := ih hrest
      refine ⟨?_, hdrop⟩
      show hexBytes (c :: d :: rest.take (2 * k)) = _
      simp [hexBytes, hhi, hlo, htake]

/-- `gh` over whole pairs is the number the bytes spell, modulo the width of its accumulator. -/
theorem gh_fold {ds bs : List UInt8} (h : hexBytes ds = some bs) (j : ℕ) :
    ds.foldl (fun j c => (j * 16 + nibble c) % 2 ^ 32) (j % 2 ^ 32) =
      bs.foldl (fun n b => 256 * n + b.toNat) j % 2 ^ 32 := by
  induction bs generalizing ds j with
  | nil =>
    rw [List.eq_nil_of_length_eq_zero (hexBytes_length h)]
    rfl
  | cons b bs ih =>
    match ds, h with
    | c :: d :: rest, h =>
      obtain ⟨hi, lo, tail, hhi, hlo, hrest, hbs⟩ := hexBytes_cons h
      cases hbs
      obtain ⟨hc, _, hhi16, _⟩ := hexDigit_spec hhi
      obtain ⟨hd, _, hlo16, _⟩ := hexDigit_spec hlo
      have hb : (UInt8.ofNat (16 * hi + lo)).toNat = 16 * hi + lo := by
        rw [UInt8.toNat_ofNat']
        omega
      have hacc : ((j % 2 ^ 32 * 16 + nibble c) % 2 ^ 32 * 16 + nibble d) % 2 ^ 32 =
          (256 * j + (16 * hi + lo)) % 2 ^ 32 := by
        rw [hc, hd]
        omega
      rw [List.foldl_cons, List.foldl_cons, List.foldl_cons, hb, hacc]
      exact ih hrest _

theorem gh_hexBytes {ds bs : List UInt8} (h : hexBytes ds = some bs) {k : ℕ} (hk : k ≤ 4) :
    gh ds (2 * k) = beWord (bs.take k) := by
  have hfold := gh_fold (hexBytes_take h k).1 0
  have hlt : beWord (bs.take k) < 2 ^ 32 := by
    have hle := leWord_lt (bs.take k).reverse
    rw [leWord, List.reverse_reverse, List.length_reverse] at hle
    calc beWord (bs.take k) < 256 ^ (bs.take k).length := hle
      _ ≤ 256 ^ 4 := Nat.pow_le_pow_right (by norm_num) ((List.length_take_le k bs).trans hk)
      _ = 2 ^ 32 := by norm_num
  exact hfold.trans (Nat.mod_eq_of_lt hlt)

theorem gh_pair {ds bs : List UInt8} {b : UInt8} (h : hexBytes ds = some (b :: bs)) : gh ds 2 = b.toNat := by
  have hgh : gh ds (2 * 1) = beWord [b] := gh_hexBytes h (by norm_num)
  rw [hgh]
  show 256 * 0 + b.toNat = b.toNat
  omega

theorem sumPairs_hexBytes {ds bs : List UInt8} (h : hexBytes ds = some bs) :
    sumPairs bs.length ds = byteSum bs := by
  induction bs generalizing ds with
  | nil => rfl
  | cons b bs ih =>
    show gh ds 2 + sumPairs bs.length (ds.drop (2 * 1)) = _
    rw [gh_pair h, ih (hexBytes_take h 1).2]
    rfl

/-! ## Lines -/

def writeBytes (w : Writer) (bs : List (ℕ × UInt8)) : Writer := bs.foldl (fun w p => w.binRecOutByte p.1 p.2) w

/-- What `srecLine` does for a record. -/
def applyRecord (s : SrecState) : SRecord → Except String SrecState
  | .header _ => .ok s
  | .data a bs => .ok {
      writer := writeBytes s.writer (bytesAt a bs)
      s1s2s3Total := (s.s1s2s3Total + 1) % 2 ^ 32 }
  | .count n => if n ||| s.s1s2s3Total ≠ 0 then .error "Incorrect number of S3 Record processed" else .ok s
  | .entry a => .ok { s with writer := s.writer.binRecOutProgramStart a }

theorem outBytes_hexBytes {ds bs : List UInt8} (h : hexBytes ds = some bs) (n a : ℕ) (hn : n ≤ bs.length)
    (w : Writer) : outBytes n a ds w = writeBytes w (bytesAt a (bs.take n)) := by
  induction n generalizing ds bs a w with
  | zero => rfl
  | succ n ih =>
    match bs, h with
    | b :: bs, h =>
      have hdrop := (hexBytes_take h 1).2
      show outBytes n ((a + 1) % 2 ^ 32) (ds.drop (2 * 1)) (w.binRecOutByte a (UInt8.ofNat (gh ds 2))) = _
      rw [gh_pair h, UInt8.ofNat_toNat, ih hdrop _ (by simpa using hn)]
      rfl

theorem recordOf_length {type : Char} {fields : List UInt8} {r : SRecord} (h : recordOf type fields = some r) :
    2 ≤ fields.length := by
  unfold recordOf at h
  split at h
  · split at h
    · next htake =>
      have hlen := congrArg List.length htake
      rw [List.length_take] at hlen
      simp only [List.length_cons, List.length_nil] at hlen
      omega
    · cases h
  · split at h
    · omega
    · cases h
  · split at h
    · omega
    · cases h
  · split at h
    · omega
    · cases h
  · cases h

/-- The parts of a well-formed line. -/
theorem lineRecord_parts {line : List UInt8} {r : SRecord} (h : lineRecord line = some r) :
    ∃ type count body digits, line = 83 :: type :: digits ∧ hexBytes digits = some (count :: body) ∧
      body.length = count.toNat ∧ byteSum (count :: body) % 256 = 255 ∧
      recordOf (Char.ofNat type.toNat) body.dropLast = some r := by
  match line, h with
  | s :: type :: digits, h =>
    rw [lineRecord] at h
    split at h
    · next hs =>
      subst hs
      split at h
      · next count body hhex =>
        split at h
        · next hok => exact ⟨type, count, body, digits, rfl, hhex, hok.1, hok.2, h⟩
        · cases h
      · cases h
    · cases h

theorem srecType_recordOf {type : UInt8} {p body : List UInt8} {r : SRecord} (s : SrecState)
    (hhex : hexBytes p = some body) (h : recordOf (Char.ofNat type.toNat) body.dropLast = some r) :
    srecType s type body.length p = applyRecord s r := by
  have hlen := recordOf_length h
  rw [List.length_dropLast] at hlen
  rw [List.dropLast_eq_take] at h
  rw [srecType]
  generalize Char.ofNat type.toNat = ch at h
  unfold recordOf at h
  split at h
  · -- S0
    split at h
    · next htake =>
      cases h
      rw [List.take_take, Nat.min_eq_left (by omega)] at htake
      have hgh : gh p 4 = 0 := by
        rw [gh_hexBytes hhex (by norm_num : 2 ≤ 4), htake]
        rfl
      simp only [if_neg (by omega : ¬ body.length < 3), hgh, ne_eq, not_true, if_false, applyRecord]
    · cases h
  · -- S3
    split at h
    · next hfour =>
      cases h
      rw [List.length_take] at hfour
      have hgh : gh p 8 = beWord ((body.take (body.length - 1)).take 4) := by
        rw [gh_hexBytes hhex (by norm_num : 4 ≤ 4), List.take_take, Nat.min_eq_left (by omega)]
      have hdata : (body.drop 4).take (body.length - 4 - 1) = (body.take (body.length - 1)).drop 4 := by
        rw [List.drop_take]
        congr 1
      have hout := outBytes_hexBytes (hexBytes_take hhex 4).2 (body.length - 4 - 1) (gh p 8)
        (by rw [List.length_drop]; omega) s.writer
      rw [hdata, hgh] at hout
      simp only [if_neg (by omega : ¬ body.length < 5), applyRecord, hgh]
      rw [← hout]
    · cases h
  · -- S5
    split at h
    · next htwo =>
      cases h
      rw [List.length_take] at htwo
      have hgh : gh p 4 = beWord (body.take (body.length - 1)) := by
        rw [gh_hexBytes hhex (by norm_num : 2 ≤ 4)]
        congr 2
        omega
      simp only [if_neg (by omega : ¬ body.length < 3), applyRecord, hgh]
    · cases h
  · -- S7
    split at h
    · next hfour =>
      cases h
      rw [List.length_take] at hfour
      have hgh : gh p 8 = beWord (body.take (body.length - 1)) := by
        rw [gh_hexBytes hhex (by norm_num : 4 ≤ 4)]
        congr 2
        omega
      simp only [if_neg (by omega : ¬ body.length < 5), if_neg (by omega : ¬ body.length - 4 ≠ 1), applyRecord,
        hgh]
    · cases h
  · cases h

theorem srecLine_lineRecord {line : List UInt8} {r : SRecord} (h : lineRecord line = some r) (s : SrecState) :
    srecLine s line = applyRecord s r := by
  obtain ⟨type, count, body, digits, rfl, hhex, hcount, hsum, hrec⟩ := lineRecord_parts h
  have hbody := recordOf_length hrec
  have hdigits := hexBytes_length hhex
  have hrest : hexBytes (digits.drop 2) = some body := (hexBytes_take hhex 1).2
  rw [List.length_dropLast] at hbody
  rw [List.length_cons] at hdigits
  have hgh : gh digits 2 = body.length := by rw [gh_pair hhex, hcount]
  have hcheck : checksum (digits.drop 2) body.length = true := by
    have hall : (digits.drop 2).all isxdigit = true :=
      List.all_eq_true.mpr fun c hc => (hexBytes_digits hrest c hc).1
    rw [checksum, hall, sumPairs_hexBytes hrest, hcount, Bool.true_and, beq_iff_eq]
    exact hsum
  have hpairs : ¬ body.length * 2 ≠ (digits.drop 2).length := by
    rw [hexBytes_length hrest]
    omega
  have hlong : ¬ (type :: digits).length < 4 := by
    rw [List.length_cons]
    omega
  have hS : ¬ Char.ofNat (83 : UInt8).toNat ≠ 'S' := by decide
  show (if Char.ofNat (83 : UInt8).toNat ≠ 'S' then _ else if (type :: digits).length < 4 then _ else
    if gh digits 2 * 2 ≠ (digits.drop 2).length then _ else
      if checksum (digits.drop 2) (gh digits 2) = false then _ else
        srecType s type (gh digits 2) (digits.drop 2)) = _
  rw [if_neg hS, if_neg hlong, hgh, if_neg hpairs, if_neg (by rw [hcheck]; simp), srecType_recordOf s hrest hrec]

/-! ## Reading a file -/

/-- The characters before the next newline go to the buffer as long as they fit. -/
theorem readline_append (len rlen : ℕ) (hlen : 1 ≤ len) (buf l tail : List UInt8) (hl : 10 ∉ l) :
    ∃ len', readline len rlen buf (l ++ tail) =
      readline len' (rlen + l.length) (buf ++ (l.filter (· ≠ 13)).take (len - 1)) tail := by
  induction l generalizing len rlen buf with
  | nil => exact ⟨len, by simp⟩
  | cons c l ih =>
    have hc : c ≠ 10 := fun h => hl (by rw [h]; exact List.mem_cons_self)
    have hl' : 10 ∉ l := fun h => hl (List.mem_cons_of_mem _ h)
    have hlength : rlen + 1 + l.length = rlen + (c :: l).length := by
      rw [List.length_cons]
      omega
    rw [List.cons_append, readline, if_neg hc]
    split
    · next hroom =>
      obtain ⟨n, rfl⟩ : ∃ n, len = n + 2 := ⟨len - 2, by omega⟩
      obtain ⟨len', h⟩ := ih (n + 2 - 1) (rlen + 1) (by omega) (buf ++ [c]) hl'
      refine ⟨len', ?_⟩
      rw [h, hlength]
      simp [hroom.2]
    · next hskip =>
      obtain ⟨len', h⟩ := ih len (rlen + 1) hlen buf hl'
      refine ⟨len', ?_⟩
      rw [h, hlength]
      by_cases h13 : c = 13
      · simp [h13]
      · obtain rfl : len = 1 := by
          by_contra hne
          exact hskip ⟨by omega, h13⟩
        simp

theorem readline_line (l rest : List UInt8) (hl : 10 ∉ l) :
    readline 256 0 [] (l ++ 10 :: rest) = some ((l.filter (· ≠ 13)).take (256 - 1), rest) := by
  obtain ⟨len', h⟩ := readline_append 256 0 (by norm_num) [] l (10 :: rest) hl
  rw [h, readline, if_pos rfl, List.nil_append]

theorem readline_last (l : List UInt8) (hl : 10 ∉ l) (hne : l ≠ []) :
    readline 256 0 [] l = some ((l.filter (· ≠ 13)).take (256 - 1), []) := by
  obtain ⟨len', h⟩ := readline_append 256 0 (by norm_num) [] l [] hl
  have hpos : ¬ 0 + l.length = 0 := by
    rw [Nat.zero_add, List.length_eq_zero_iff]
    exact hne
  rw [List.append_nil] at h
  rw [h, readline, if_neg hpos, List.nil_append]

theorem lineRecord_chars {line : List UInt8} {r : SRecord} (h : lineRecord line = some r) :
    ∀ c ∈ line, c ≠ 0 ∧ c ≠ 13 := by
  obtain ⟨type, count, body, digits, rfl, hhex, _, _, hrec⟩ := lineRecord_parts h
  intro c hc
  rcases List.mem_cons.mp hc with rfl | hc
  · decide
  · rcases List.mem_cons.mp hc with rfl | hc
    · constructor
      · rintro rfl
        cases hrec
      · rintro rfl
        cases hrec
    · exact (hexBytes_digits hhex c hc).2

/-- What the buffer holds after a line that is empty or well-formed and not too long. -/
theorem lineOf_stripReturn {l : List UInt8} (hfit : (stripReturn l).length ≤ 255)
    (hchars : ∀ c ∈ stripReturn l, c ≠ 0 ∧ c ≠ 13) :
    lineOf ((l.filter (· ≠ 13)).take (256 - 1)) = stripReturn l := by
  have hfilter : l.filter (· ≠ 13) = stripReturn l := by
    have hkeep : (stripReturn l).filter (· ≠ 13) = stripReturn l :=
      List.filter_eq_self.mpr fun c hc => by simpa using (hchars c hc).2
    by_cases h13 : l.getLast? = some 13
    · have hsplit : l = l.dropLast ++ [13] := (List.dropLast_append_getLast? 13 h13).symm
      have hstrip : stripReturn l = l.dropLast := if_pos h13
      rw [hstrip] at hkeep ⊢
      nth_rewrite 1 [hsplit]
      rw [List.filter_append, hkeep]
      simp
    · have hstrip : stripReturn l = l := if_neg h13
      rw [hstrip] at hkeep ⊢
      exact hkeep
  rw [hfilter, List.take_of_length_le hfit, lineOf, List.takeWhile_eq_self_iff]
  intro c hc
  simpa using (hchars c hc).1

/-- The records in order, up to the first that fails. -/
def applyRecords : SrecState → List SRecord → SrecState
  | s, [] => s
  | s, r :: rs =>
      match applyRecord s r with
      | .error _ => s
      | .ok s' => applyRecords s' rs

theorem fileLines_newline {l rest : List UInt8} (hl : 10 ∉ l) :
    fileLines (l ++ 10 :: rest) = (if stripReturn l = [] then [] else [stripReturn l]) ++ fileLines rest := by
  rw [fileLines, List.splitOn_append_cons_self_of_not_mem hl, List.map_cons, List.filter_cons]
  split <;> simp_all [fileLines]

theorem fileLines_last {l : List UInt8} (hl : 10 ∉ l) :
    fileLines l = if stripReturn l = [] then [] else [stripReturn l] := by
  rw [fileLines, List.splitOn_eq_singleton hl, List.map_singleton, List.filter_cons]
  split <;> simp_all

theorem mapM_cons_some {line : List UInt8} {lines : List (List UInt8)} {rs : List SRecord}
    (h : (line :: lines).mapM lineRecord = some rs) :
    ∃ r rs', lineRecord line = some r ∧ lines.mapM lineRecord = some rs' ∧ rs = r :: rs' := by
  simp only [List.mapM_cons, Option.bind_eq_bind, Option.bind_eq_some_iff, Option.pure_def,
    Option.some_inj] at h
  obtain ⟨r, hr, rs', hrs, rfl⟩ := h
  exact ⟨r, rs', hr, hrs, rfl⟩

/-- One round of the loop on a line that is empty or a record. -/
theorem srecLoop_round {fuel : ℕ} {s : SrecState} {input l rest : List UInt8} {lines : List (List UInt8)}
    {rs : List SRecord}
    (hread : readline 256 0 [] input = some ((l.filter (· ≠ 13)).take (256 - 1), rest))
    (hrs : ((if stripReturn l = [] then [] else [stripReturn l]) ++ lines).mapM lineRecord = some rs)
    (hfit : (stripReturn l).length ≤ 255)
    (hrest : ∀ s rs', lines.mapM lineRecord = some rs' → srecLoop fuel s rest = applyRecords s rs') :
    srecLoop (fuel + 1) s input = applyRecords s rs := by
  by_cases hempty : stripReturn l = []
  · rw [if_pos hempty, List.nil_append] at hrs
    have hline := lineOf_stripReturn hfit (by rw [hempty]; simp)
    rw [hempty] at hline
    rw [srecLoop, hread]
    simp only [hline, if_true]
    exact hrest s rs hrs
  · rw [if_neg hempty, List.singleton_append] at hrs
    obtain ⟨r, rs', hr, hrs', rfl⟩ := mapM_cons_some hrs
    have hline := lineOf_stripReturn hfit (lineRecord_chars hr)
    rw [srecLoop, hread]
    simp only [hline, if_neg hempty, srecLine_lineRecord hr]
    rw [applyRecords]
    cases applyRecord s r with
    | error e => rfl
    | ok s' => exact hrest s' rs' hrs'

theorem srecLoop_fileRecords (fuel : ℕ) (s : SrecState) (input : List UInt8) {rs : List SRecord}
    (hfuel : input.length < fuel) (hfit : ∀ line ∈ fileLines input, line.length ≤ 255)
    (hrs : fileRecords input = some rs) : srecLoop fuel s input = applyRecords s rs := by
  have hshort : ∀ l : List UInt8, ∀ lines, (∀ line ∈ (if stripReturn l = [] then [] else [stripReturn l]) ++ lines,
      line.length ≤ 255) → (stripReturn l).length ≤ 255 := by
    intro l lines h
    by_cases hempty : stripReturn l = []
    · simp [hempty]
    · exact h _ (by simp [hempty])
  induction fuel generalizing s input rs with
  | zero => omega
  | succ fuel ih =>
    by_cases hnl : (10 : UInt8) ∈ input
    · obtain ⟨l, rest, rfl, hl⟩ := List.eq_append_cons_of_mem hnl
      rw [fileRecords, fileLines_newline hl] at hrs
      rw [fileLines_newline hl] at hfit
      apply srecLoop_round (readline_line l rest hl) hrs (hshort l _ hfit)
      intro s' rs' hrs'
      apply ih s' rest (by simp at hfuel; omega) _ hrs'
      intro line hline
      exact hfit line (List.mem_append_right _ hline)
    · rw [fileRecords, fileLines_last hnl] at hrs
      rw [fileLines_last hnl] at hfit
      by_cases hnil : input = []
      · subst hnil
        cases hrs
        rfl
      · rw [← List.append_nil (if stripReturn input = [] then [] else [stripReturn input])] at hrs hfit
        apply srecLoop_round (readline_last input hnl hnil) hrs (hshort input _ hfit)
        intro s' rs' hrs'
        cases hrs'
        cases fuel with
        | zero => rfl
        | succ fuel => rfl

theorem srec2bin_fileRecords (bigEndian : Bool) {input : List UInt8} {rs : List SRecord}
    (hfit : ∀ line ∈ fileLines input, line.length ≤ 255) (hrs : fileRecords input = some rs) :
    srec2bin bigEndian input = (applyRecords (initialState (tagOf bigEndian)) rs).writer.binRecEnd.out := by
  rw [srec2bin, srecLoop_fileRecords _ _ input (Nat.lt_succ_self _) hfit hrs]

/-- Addresses have four bytes. -/
theorem lineRecord_address {line : List UInt8} {a : ℕ}
    (h : (∃ bs, lineRecord line = some (.data a bs)) ∨ lineRecord line = some (.entry a)) : a < 2 ^ 32 := by
  have hword : ∀ bs : List UInt8, bs.length ≤ 4 → beWord bs < 2 ^ 32 := by
    intro bs hbs
    have hlt := leWord_take_lt bs.reverse
    rwa [List.take_of_length_le (by simpa using hbs), leWord, List.reverse_reverse] at hlt
  have hrec : ∀ type fields, (∃ bs, recordOf type fields = some (.data a bs)) ∨
      recordOf type fields = some (.entry a) → a < 2 ^ 32 := by
    intro type fields hfields
    unfold recordOf at hfields
    rcases hfields with ⟨bs, hf⟩ | hf
    all_goals split at hf
    all_goals first | cases hf | skip
    all_goals split at hf
    all_goals cases hf
    · exact hword _ (List.length_take_le 4 fields)
    · next hfour => exact hword _ hfour.le
  rcases h with ⟨bs, h⟩ | h
  · obtain ⟨type, count, body, digits, _, _, _, _, hr⟩ := lineRecord_parts h
    exact hrec _ _ (Or.inl ⟨bs, hr⟩)
  · obtain ⟨type, count, body, digits, _, _, _, _, hr⟩ := lineRecord_parts h
    exact hrec _ _ (Or.inr hr)

end Neufbox.Srec
