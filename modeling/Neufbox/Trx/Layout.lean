import Neufbox.Trx.Tool

/-! # The layout of a trx image

As long as the running length of the options stays inside the buffer and no more than three files get
an offset, every store of the tool goes behind what it has placed before, or into the header word it
is meant for. With a longer run the tool writes behind its buffer; with a fourth file it writes behind
the offsets. -/
namespace Neufbox.Trx
open Memory WrapArith
set_option autoImplicit false
set_option maxHeartbeats 250000
set_option maxRecDepth 120000

/-! ## What the image should look like -/

def word (out : List UInt8) (off : ℕ) : ℕ := leWord ((out.drop off).take 4)

/-- `offsets` of the header. -/
def headerOffsets (out : List UInt8) : List ℕ := [word out 16, word out 20, word out 24]

def partitions (placed : List Placed) : List Placed := placed.filter fun pl => !pl.appended

structure TrxGood (r : TrxResult) : Prop where
  inBuffer : r.written ≤ maxlen
  offsets : ∀ (k : ℕ) (pl : Placed), (partitions r.placed)[k]? = some pl → (headerOffsets r.output)[k]? = some pl.pos
  bytes : ∀ pl ∈ r.placed, (r.output.drop pl.pos).take pl.data.length = pl.data
  len : word r.output 4 = r.output.length ∧ 0x1000 ∣ r.output.length
  crc : word r.output 8 = crc32buf (r.output.drop 12)

/-! ## The running length -/

def advance (cur : ℕ) : TrxOption → ℕ
  | .file data => cur + roundUp data.length 4
  | .append data => cur + roundUp data.length 4
  | .align n => roundUp cur n
  | .offset n => max cur n

def runningLength (cur : ℕ) (options : List TrxOption) : ℕ := options.foldl advance cur

def isFile : TrxOption → Bool
  | .file _ => true
  | _ => false

def fileCount (options : List TrxOption) : ℕ := options.countP isFile

/-- The alignments are powers of two of a `size_t`. -/
def AlignsOk (options : List TrxOption) : Prop :=
  ∀ n, TrxOption.align n ∈ options → ∃ k < 64, n = 2 ^ k

theorem pad_eq (n : ℕ) : n + (if n % 4 = 0 then 0 else 4 - n % 4) = roundUp n 4 := by
  unfold roundUp
  split <;> omega

theorem le_advance {cur : ℕ} {o : TrxOption} (ho : ∀ n, o = .align n → ∃ k < 64, n = 2 ^ k) :
    cur ≤ advance cur o := by
  cases o with
  | file data => exact Nat.le_add_right _ _
  | append data => exact Nat.le_add_right _ _
  | align n =>
    obtain ⟨k, -, rfl⟩ := ho n rfl
    exact le_roundUp (by positivity)
  | offset n => exact le_max_left _ _

theorem le_runningLength {options : List TrxOption} (hal : AlignsOk options) (cur : ℕ) :
    cur ≤ runningLength cur options := by
  induction options generalizing cur with
  | nil => exact le_refl cur
  | cons o options ih =>
    have ho : ∀ n, o = .align n → ∃ k < 64, n = 2 ^ k := fun n hn => hal n (hn ▸ List.mem_cons_self)
    have hrest : AlignsOk options := fun n hn => hal n (List.mem_cons_of_mem o hn)
    exact (le_advance ho).trans (ih hrest (advance cur o))

/-! ## What one option does -/

def newlyPlaced (cur : ℕ) : TrxOption → List Placed
  | .file data => [⟨false, cur, data⟩]
  | .append data => [⟨true, cur, data⟩]
  | _ => []

/-- An option stores one word if it is a file that gets an offset, and then one block from the current
length up to the new one, which begins with the file. -/
structure Applied (s s' : TrxState) (o : TrxOption) (block : List UInt8) : Prop where
  length : s.curLen + block.length = advance s.curLen o
  mem : s'.mem =
    store (if isFile o then store s.mem (16 + 4 * s.i) (leBytes s.curLen) else s.mem) s.curLen block
  written : s'.written = (let w := if isFile o then max s.written (16 + 4 * s.i + 4) else s.written
    if block = [] then w else max w (s.curLen + block.length))
  curLen : s'.curLen = advance s.curLen o % 2 ^ 32
  index : s'.i = s.i + if isFile o then 1 else 0
  placed : s'.placed = s.placed ++ newlyPlaced s.curLen o
  data : ∀ pl ∈ newlyPlaced s.curLen o, block.take pl.data.length = pl.data

theorem readFile_cases {s s' : TrxState} {appended : Bool} {data : List UInt8}
    (h : s.readFile appended data = some s') :
    ∃ block, Applied s s' (if appended then .append data else .file data) block := by
  have hpad := pad_eq data.length
  have hlen : s.curLen + (data ++ List.replicate (if data.length % 4 = 0 then 0 else 4 - data.length % 4)
      (0 : UInt8)).length = s.curLen + roundUp data.length 4 := by
    rw [List.length_append, List.length_replicate, hpad]
  have hcur : (s.curLen + (data.length + if data.length % 4 = 0 then 0 else 4 - data.length % 4)) % 2 ^ 32 =
      (s.curLen + roundUp data.length 4) % 2 ^ 32 := by
    rw [hpad]
  have hdata : ∀ (b : Bool) (zeros : List UInt8), ∀ pl ∈ [(⟨b, s.curLen, data⟩ : Placed)],
      (data ++ zeros).take pl.data.length = pl.data := by
    intro b zeros pl hpl
    rw [List.mem_singleton.mp hpl]
    exact List.take_left
  unfold TrxState.readFile at h
  cases appended with
  | true =>
    simp only [if_true] at h
    split at h
    · cases h
    · cases h
      exact ⟨_, hlen, rfl, rfl, hcur, rfl, rfl, hdata true _⟩
  | false =>
    simp only [Bool.false_eq_true, if_false] at h
    split at h
    · cases h
    · cases h
      exact ⟨_, hlen, rfl, rfl, hcur, rfl, rfl, hdata false _⟩

theorem applied_idle {s : TrxState} {o : TrxOption} (hcur : s.curLen < 2 ^ 32) (hfile : isFile o = false)
    (hnew : newlyPlaced s.curLen o = []) (hadv : advance s.curLen o = s.curLen) : Applied s s o [] where
  length := hadv.symm
  mem := by simp [hfile]
  written := by simp [hfile]
  curLen := by rw [hadv, Nat.mod_eq_of_lt hcur]
  index := by simp [hfile]
  placed := by rw [hnew, List.append_nil]
  data := by simp [hnew]

theorem applied_memset {s : TrxState} {o : TrxOption} (n : ℕ) (hfile : isFile o = false)
    (hnew : newlyPlaced s.curLen o = []) (hadv : advance s.curLen o = s.curLen + n) :
    Applied s (s.memset n) o (List.replicate n 0) where
  length := by rw [List.length_replicate, hadv]
  mem := by
    rw [hfile]
    rfl
  written := by
    rw [hfile]
    rfl
  curLen := by
    rw [hadv]
    rfl
  index := by
    rw [hfile]
    rfl
  placed := by
    rw [hnew, List.append_nil]
    rfl
  data := by simp [hnew]

theorem applyOption_cases {s s' : TrxState} {o : TrxOption} (hcur : s.curLen < 2 ^ 32)
    (ho : ∀ n, o = .align n → ∃ k < 64, n = 2 ^ k) (h : s.applyOption o = some s') :
    ∃ block, Applied s s' o block := by
  cases o with
  | file data => exact readFile_cases h
  | append data => exact readFile_cases h
  | align n =>
    obtain ⟨k, hk, rfl⟩ := ho n rfl
    have hpow : (2 : ℕ) ^ k < 2 ^ 64 := Nat.pow_lt_pow_right (by norm_num) hk
    have hmod : s.curLen % 2 ^ k < 2 ^ k := Nat.mod_lt _ (by positivity)
    have hround := roundUp_mod s.curLen (by positivity : 0 < 2 ^ k)
    simp only [TrxState.applyOption, and_wrapSub_one hk, Option.some.injEq] at h
    subst h
    split
    · next hrest =>
      rw [if_pos hrest] at hround
      exact ⟨[], applied_idle hcur rfl rfl hround⟩
    · next hrest =>
      rw [if_neg hrest] at hround
      refine ⟨_, applied_memset _ rfl rfl ?_⟩
      rw [wrapSub_of_le hmod.le hpow]
      exact hround
  | offset n =>
    simp only [TrxState.applyOption, Option.some.injEq] at h
    subst h
    split
    · next hlt => exact ⟨[], applied_idle hcur rfl rfl (max_eq_left hlt.le)⟩
    · next hle =>
      have hsum : s.curLen + (n - s.curLen) = n := by omega
      have hadv : advance s.curLen (.offset n) = s.curLen + (n - s.curLen) := by
        rw [hsum]
        exact max_eq_right (by omega)
      have hset := applied_memset (n - s.curLen) rfl rfl hadv
      rw [TrxState.memset, hsum] at hset
      exact ⟨_, hset⟩

namespace Applied
variable {s s' : TrxState} {o : TrxOption} {block : List UInt8} (h : Applied s s' o block)
include h

theorem curLen_lt : s'.curLen < 2 ^ 32 := by
  rw [h.curLen]
  exact Nat.mod_lt _ (by norm_num)

theorem written_le : s.written ≤ s'.written := by
  rw [h.written]
  simp only
  split_ifs <;> omega

/-- A step that makes the length grow writes up to the new length. -/
theorem advance_le_written (hgrow : s.curLen < advance s.curLen o) : advance s.curLen o ≤ s'.written := by
  have hlen := h.length
  have hne : block ≠ [] := by
    rintro rfl
    rw [List.length_nil] at hlen
    omega
  rw [h.written]
  simp only
  rw [if_neg hne, hlen]
  exact le_max_right _ _

theorem partitions_length :
    (partitions s'.placed).length = (partitions s.placed).length + if isFile o then 1 else 0 := by
  rw [h.placed, partitions, List.filter_append, List.length_append]
  cases o <;> rfl

end Applied

/-! ## Whole runs of options -/

section Runs
variable {options : List TrxOption} {s s' : TrxState}

theorem run_cons {o : TrxOption} (hal : AlignsOk (o :: options)) (hcur : s.curLen < 2 ^ 32)
    (h : (o :: options).foldlM TrxState.applyOption s = some s') :
    ∃ s₁ block, Applied s s₁ o block ∧ options.foldlM TrxState.applyOption s₁ = some s' ∧
      AlignsOk options := by
  rw [List.foldlM_cons] at h
  cases hstep : s.applyOption o with
  | none =>
    rw [hstep] at h
    cases h
  | some s₁ =>
    rw [hstep] at h
    obtain ⟨block, happ⟩ := applyOption_cases hcur (fun n hn => hal n (hn ▸ List.mem_cons_self)) hstep
    exact ⟨s₁, block, happ, h, fun n hn => hal n (List.mem_cons_of_mem o hn)⟩

theorem run_written (hal : AlignsOk options) (hcur : s.curLen < 2 ^ 32)
    (h : options.foldlM TrxState.applyOption s = some s') : s.written ≤ s'.written := by
  induction options generalizing s with
  | nil =>
    cases h
    exact le_refl _
  | cons o options ih =>
    obtain ⟨s₁, block, happ, hrun, hrest⟩ := run_cons hal hcur h
    exact happ.written_le.trans (ih hrest happ.curLen_lt hrun)

theorem run_partitions (hal : AlignsOk options) (hcur : s.curLen < 2 ^ 32)
    (h : options.foldlM TrxState.applyOption s = some s') :
    (partitions s'.placed).length = (partitions s.placed).length + fileCount options := by
  induction options generalizing s with
  | nil =>
    cases h
    rfl
  | cons o options ih =>
    obtain ⟨s₁, block, happ, hrun, hrest⟩ := run_cons hal hcur h
    rw [ih hrest happ.curLen_lt hrun, happ.partitions_length, fileCount, fileCount, List.countP_cons]
    omega

/-- When the running length exceeds the buffer, so does what was written. -/
theorem run_overrun (hal : AlignsOk options) (hcur : s.curLen ≤ maxlen)
    (h : options.foldlM TrxState.applyOption s = some s')
    (hlong : maxlen < runningLength s.curLen options) : maxlen < s'.written := by
  induction options generalizing s with
  | nil => exact absurd hlong (by rw [runningLength, List.foldl_nil]; omega)
  | cons o options ih =>
    have hmax : maxlen < 2 ^ 32 := by norm_num [maxlen]
    obtain ⟨s₁, block, happ, hrun, hrest⟩ := run_cons hal (by omega) h
    by_cases hle : advance s.curLen o ≤ maxlen
    · have hcur₁ : s₁.curLen = advance s.curLen o := by
        rw [happ.curLen, Nat.mod_eq_of_lt (by omega)]
      apply ih hrest (by omega) hrun
      rw [hcur₁]
      exact hlong
    · have hwritten := happ.advance_le_written (by omega)
      have hmono := run_written hrest happ.curLen_lt hrun
      omega

end Runs

/-! ## The invariant of a run that stays inside -/

structure Laid (s : TrxState) : Prop where
  low : 28 ≤ s.curLen
  high : s.curLen ≤ maxlen
  written : s.written ≤ maxlen
  index : s.i = (partitions s.placed).length
  three : s.i ≤ 3
  offsets : ∀ (k : ℕ) (pl : Placed), (partitions s.placed)[k]? = some pl →
    load s.mem (16 + 4 * k) 4 = leBytes pl.pos
  inside : ∀ pl ∈ s.placed, 28 ≤ pl.pos ∧ pl.pos + pl.data.length ≤ s.curLen
  bytes : ∀ pl ∈ s.placed, load s.mem pl.pos pl.data.length = pl.data

theorem initial_laid (garbage : ℕ → UInt8) : Laid (initialState garbage) where
  low := le_refl 28
  high := by
    show 28 ≤ maxlen
    norm_num [maxlen]
  written := by
    show 16 ≤ maxlen
    norm_num [maxlen]
  index := rfl
  three := Nat.zero_le 3
  offsets := by
    intro k pl hpl
    simp [initialState, partitions] at hpl
  inside := by simp [initialState]
  bytes := by simp [initialState]

section Step
variable {s s' : TrxState} {o : TrxOption} {block : List UInt8}

/-- Cells outside the offset word and behind the current length are untouched. -/
theorem Applied.load_eq (h : Applied s s' o block) {off n : ℕ} (hbelow : off + n ≤ s.curLen)
    (hword : isFile o = true → off + n ≤ 16 + 4 * s.i ∨ 16 + 4 * s.i + 4 ≤ off) :
    load s'.mem off n = load s.mem off n := by
  rw [h.mem, load_store_disjoint _ (Or.inl hbelow)]
  cases hfile : isFile o with
  | false => rfl
  | true =>
    rw [if_pos rfl]
    apply load_store_disjoint
    rw [leBytes_length]
    exact hword hfile

theorem Laid.offsets_step (hs : Laid s) (h : Applied s s' o block) (hindex : isFile o = true → s.i < 3)
    (k : ℕ) (pl : Placed) (hpl : (partitions s'.placed)[k]? = some pl) :
    load s'.mem (16 + 4 * k) 4 = leBytes pl.pos := by
  have hlow := hs.low
  have hlen := hs.index
  -- a word that was there before the step
  have hold : k < s.i → (partitions s.placed)[k]? = some pl → load s'.mem (16 + 4 * k) 4 = leBytes pl.pos := by
    intro hk hmem
    have hthree := hs.three
    rw [h.load_eq (by omega) (fun _ => Or.inl (by omega)), hs.offsets k pl hmem]
  have hk : k < (partitions s'.placed).length := (List.getElem?_eq_some_iff.mp hpl).1
  rw [h.partitions_length, ← hlen] at hk
  rw [h.placed, partitions, List.filter_append] at hpl
  cases hfile : isFile o with
  | false =>
    have hnone : (newlyPlaced s.curLen o).filter (fun pl => !pl.appended) = [] := by
      cases o <;> first | rfl | simp [isFile] at hfile
    rw [hnone, List.append_nil] at hpl
    rw [hfile] at hk
    exact hold hk hpl
  | true =>
    have hthree := hindex hfile
    by_cases hlast : k = s.i
    · have hnew : pl.pos = s.curLen := by
        rw [List.getElem?_append_right (by rw [← partitions, ← hlen]; omega)] at hpl
        have hmem := List.mem_of_mem_filter (List.mem_of_getElem? hpl)
        cases o <;> simp [newlyPlaced] at hmem <;> rw [hmem]
      rw [hlast, hnew, h.mem, hfile, if_pos rfl, load_store_disjoint _ (Or.inl (by omega))]
      exact load_store_same s.mem (16 + 4 * s.i) (leBytes s.curLen)
    · rw [hfile, if_pos rfl] at hk
      rw [List.getElem?_append_left (by rw [← partitions, ← hlen]; omega)] at hpl
      exact hold (by omega) hpl

theorem Laid.step (hs : Laid s) (h : Applied s s' o block) (hfit : advance s.curLen o ≤ maxlen)
    (hindex : isFile o = true → s.i < 3) (ho : s.curLen ≤ advance s.curLen o) : Laid s' := by
  have hmax : maxlen < 2 ^ 32 := by norm_num [maxlen]
  have hlow := hs.low
  have hcur : s'.curLen = advance s.curLen o := by rw [h.curLen, Nat.mod_eq_of_lt (by omega)]
  have hkeep : ∀ pl ∈ s.placed, load s'.mem pl.pos pl.data.length = pl.data := by
    intro pl hpl
    have hin := hs.inside pl hpl
    rw [h.load_eq hin.2 (fun hfile => Or.inr (by have := hindex hfile; omega)), hs.bytes pl hpl]
  have hnew : ∀ pl ∈ newlyPlaced s.curLen o, pl.pos = s.curLen ∧ pl.data.length ≤ block.length ∧
      load s'.mem pl.pos pl.data.length = pl.data := by
    intro pl hpl
    have hpos : pl.pos = s.curLen := by
      cases o <;> simp [newlyPlaced] at hpl <;> rw [hpl]
    have hdata := h.data pl hpl
    have hlen := congrArg List.length hdata
    rw [List.length_take] at hlen
    refine ⟨hpos, by omega, ?_⟩
    rw [hpos, ← load_take s'.mem s.curLen (by omega : pl.data.length ≤ block.length), h.mem,
      load_store_same, hdata]
  refine ⟨by omega, by omega, ?_, ?_, ?_, hs.offsets_step h hindex, ?_, ?_⟩
  · have hw := hs.written
    have hlen := h.length
    have hheader : 28 ≤ maxlen := by norm_num [maxlen]
    rw [h.written]
    simp only
    split_ifs with hnil hfile hfile
    · have := hindex hfile
      omega
    · exact hw
    · have := hindex hfile
      omega
    · omega
  · rw [h.index, h.partitions_length, hs.index]
  · have hthree := hs.three
    rw [h.index]
    split
    · next hfile => exact hindex hfile
    · exact hthree
  · intro pl hpl
    rw [h.placed] at hpl
    rcases List.mem_append.mp hpl with hold | hfresh
    · have hin := hs.inside pl hold
      omega
    · obtain ⟨hpos, hlen, -⟩ := hnew pl hfresh
      have htotal := h.length
      omega
  · intro pl hpl
    rw [h.placed] at hpl
    rcases List.mem_append.mp hpl with hold | hfresh
    · exact hkeep pl hold
    · exact (hnew pl hfresh).2.2

end Step

theorem run_laid {options : List TrxOption} {s s' : TrxState} (hal : AlignsOk options) (hs : Laid s)
    (h : options.foldlM TrxState.applyOption s = some s') (hlen : runningLength s.curLen options ≤ maxlen)
    (hfiles : s.i + fileCount options ≤ 3) : Laid s' := by
  induction options generalizing s with
  | nil =>
    cases h
    exact hs
  | cons o options ih =>
    have hmax : maxlen < 2 ^ 32 := by norm_num [maxlen]
    have hhigh := hs.high
    obtain ⟨s₁, block, happ, hrun, hrest⟩ := run_cons hal (by omega) h
    have hadv : s.curLen ≤ advance s.curLen o := le_advance fun n hn => hal n (hn ▸ List.mem_cons_self)
    have hfit : advance s.curLen o ≤ maxlen := (le_runningLength hrest _).trans hlen
    have hcur : s₁.curLen = advance s.curLen o := by rw [happ.curLen, Nat.mod_eq_of_lt (by omega)]
    rw [fileCount, List.countP_cons] at hfiles
    have hindex : isFile o = true → s.i < 3 := by
      intro hfile
      rw [if_pos hfile] at hfiles
      omega
    apply ih hrest (hs.step happ hfit hindex hadv) hrun
    · rw [hcur]
      exact hlen
    · rw [happ.index, fileCount]
      omega

/-! ## The finished image -/

theorem put_written (s : TrxState) (off : ℕ) (bs : List UInt8) : s.written ≤ (s.put off bs).written := by
  show s.written ≤ if bs = [] then s.written else max s.written (off + bs.length)
  split
  · exact le_refl _
  · exact le_max_left _ _

theorem finish_cases {s : TrxState} {r : TrxResult} (h : finish s = some r) :
    r = ⟨load s.fillPage.seal.mem 0 s.fillPage.seal.curLen, s.fillPage.seal.written, s.fillPage.seal.placed⟩ := by
  unfold finish at h
  simp only at h
  split at h
  · cases h
  · exact (Option.some.inj h).symm

theorem seal_written (s : TrxState) : s.written ≤ s.seal.written :=
  (put_written s _ _).trans (put_written _ _ _)

theorem fillPage_written (s : TrxState) : s.written ≤ s.fillPage.written := by
  unfold TrxState.fillPage
  split
  · exact le_refl _
  · exact put_written s _ _

theorem fillPage_placed (s : TrxState) : s.fillPage.placed = s.placed := by
  unfold TrxState.fillPage
  split <;> rfl

/-- The last page is filled up as by an option. -/
theorem fillPage_applied {s : TrxState} (hcur : s.curLen < 2 ^ 32) :
    ∃ block, Applied s s.fillPage (.align 0x1000) block := by
  apply applyOption_cases hcur
  · intro n hn
    cases hn
    exact ⟨12, by norm_num, by norm_num⟩
  · have hmask : s.curLen &&& wrapSub 64 0x1000 1 = s.curLen % 0x1000 :=
      and_wrapSub_one (k := 12) (by norm_num)
    have hmod : s.curLen % 0x1000 < 0x1000 := Nat.mod_lt _ (by norm_num)
    have hsub : wrapSub 64 0x1000 (s.curLen % 0x1000) = 0x1000 - s.curLen % 0x1000 :=
      wrapSub_of_le hmod.le (by norm_num)
    simp only [TrxState.applyOption, hmask, hsub, TrxState.fillPage]

theorem Laid.fillPage {s : TrxState} (hs : Laid s) :
    Laid s.fillPage ∧ s.fillPage.curLen = roundUp s.curLen 0x1000 := by
  have hhigh := hs.high
  have hmax : maxlen < 2 ^ 32 := by norm_num [maxlen]
  obtain ⟨block, happ⟩ := fillPage_applied (s := s) (by omega)
  have hfit : roundUp s.curLen 0x1000 ≤ maxlen :=
    roundUp_le (by norm_num) (by norm_num [maxlen]) hhigh
  refine ⟨hs.step happ hfit (fun hfile => absurd hfile (by simp [isFile])) (le_roundUp (by norm_num)), ?_⟩
  rw [happ.curLen]
  exact Nat.mod_eq_of_lt (lt_of_le_of_lt hfit hmax)

theorem seal_load {s : TrxState} {off : ℕ} (hoff : 12 ≤ off) (n : ℕ) :
    load s.seal.mem off n = load s.mem off n := by
  show load (store (store s.mem 8 _) 4 _) off n = load s.mem off n
  rw [load_store_disjoint _ (Or.inr (by rw [leBytes_length]; omega)),
    load_store_disjoint _ (Or.inr (by rw [leBytes_length]; omega))]

/-- A buffer whose parts are in place is a good image once it is sealed. -/
theorem Laid.seal_good {s : TrxState} (hs : Laid s) (hpage : 0x1000 ∣ s.curLen) :
    TrxGood ⟨load s.seal.mem 0 s.seal.curLen, s.seal.written, s.seal.placed⟩ := by
  have hlow := hs.low
  have hhigh := hs.high
  have hmax : maxlen < 2 ^ 32 := by norm_num [maxlen]
  have hword : ∀ off, off + 4 ≤ s.curLen → word (load s.seal.mem 0 s.curLen) off = leWord (load s.seal.mem off 4) := by
    intro off hoff
    rw [word, load_slice _ hoff]
  have hrest : wrapSub 64 s.curLen 12 = s.curLen - 12 := wrapSub_of_le (by omega) (by omega)
  have hcrc : Crc32.update crcTable 0xFFFFFFFF (load s.mem 12 (s.curLen - 12)) < 2 ^ 32 :=
    Crc32.update_lt crcTable (by norm_num) _
  constructor
  · have hw := hs.written
    have hheader : 12 ≤ maxlen := by norm_num [maxlen]
    show max (max s.written (8 + 4)) (4 + 4) ≤ maxlen
    omega
  · intro k pl hpl
    have hk : k < (partitions s.placed).length := (List.getElem?_eq_some_iff.mp hpl).1
    have hthree := hs.three
    have hpos : pl.pos < 2 ^ 32 := by
      have hmem := List.mem_of_mem_filter (List.mem_of_getElem? hpl)
      have hin := hs.inside pl hmem
      omega
    have hoffset : leWord (load s.seal.mem (16 + 4 * k) 4) = pl.pos := by
      rw [seal_load (by omega), hs.offsets k pl hpl, leWord_leBytes hpos]
    rw [← hs.index] at hk
    show (headerOffsets (load s.seal.mem 0 s.curLen))[k]? = some pl.pos
    rw [← hoffset, headerOffsets, hword 16 (by omega), hword 20 (by omega), hword 24 (by omega)]
    have hcases : k = 0 ∨ k = 1 ∨ k = 2 := by omega
    rcases hcases with rfl | rfl | rfl <;> rfl
  · intro pl hpl
    have hin := hs.inside pl hpl
    show ((load s.seal.mem 0 s.curLen).drop pl.pos).take pl.data.length = pl.data
    rw [load_slice _ hin.2, seal_load (by omega), hs.bytes pl hpl]
  · refine ⟨?_, by rw [load_length]; exact hpage⟩
    show word (load s.seal.mem 0 s.curLen) 4 = (load s.seal.mem 0 s.curLen).length
    rw [hword 4 (by omega), load_length]
    have hsame := load_store_same (s.put 8 (leBytes (crc32buf (load s.mem 12 (wrapSub 64 s.curLen 12))))).mem 4
      (leBytes s.curLen)
    exact (congrArg leWord hsame).trans (leWord_leBytes (by omega))
  · show word (load s.seal.mem 0 s.curLen) 8 = crc32buf ((load s.seal.mem 0 s.curLen).drop 12)
    rw [hword 8 (by omega), load_drop _ _ (by omega), seal_load (le_refl 12)]
    have hsame : load s.seal.mem 8 4 = leBytes (crc32buf (load s.mem 12 (wrapSub 64 s.curLen 12))) := by
      show load (store (store s.mem 8 _) 4 _) 8 4 = _
      rw [load_store_disjoint _ (Or.inr (by rw [leBytes_length]))]
      exact load_store_same s.mem 8 _
    rw [hsame, hrest]
    exact leWord_leBytes hcrc

/-- The image of a successful run is laid out as it should be exactly when at most three files got an
offset and the running length of the options stays within the buffer. -/
theorem trx_layout_iff (garbage : ℕ → UInt8) (options : List TrxOption) (hal : AlignsOk options)
    (r : TrxResult) (h : trxMain garbage options = some r) :
    TrxGood r ↔ fileCount options ≤ 3 ∧ runningLength 28 options ≤ maxlen := by
  unfold trxMain at h
  split at h
  · cases h
  · next s hrun =>
    split at h
    · have hr := finish_cases h
      have hinit := initial_laid garbage
      have hmax : maxlen < 2 ^ 32 := by norm_num [maxlen]
      have hstart : (initialState garbage).curLen < 2 ^ 32 := by
        show 28 < 2 ^ 32
        norm_num
      constructor
      · intro hgood
        rw [hr] at hgood
        constructor
        · by_contra hmany
          have hcount := run_partitions hal hstart hrun
          have hthree : 3 < (partitions s.fillPage.seal.placed).length := by
            show 3 < (partitions s.fillPage.placed).length
            rw [fillPage_placed, hcount]
            omega
          have hoffset := hgood.offsets 3 _ (List.getElem?_eq_getElem hthree)
          simp [headerOffsets] at hoffset
        · by_contra hlong
          have hover := run_overrun hal hinit.high hrun (by show maxlen < runningLength 28 options; omega)
          have hfill := fillPage_written s
          have hseal := seal_written s.fillPage
          have hbuffer := hgood.inBuffer
          simp only at hbuffer
          omega
      · rintro ⟨hfiles, hlen⟩
        have hlaid := run_laid hal hinit hrun hlen (by show 0 + fileCount options ≤ 3; omega)
        obtain ⟨hfill, hcur⟩ := hlaid.fillPage
        rw [hr]
        apply hfill.seal_good
        rw [hcur]
        exact dvd_roundUp _ _
    · cases h

/-! ## Three files, and four -/

theorem trxMain_some (garbage : ℕ → UInt8) (options : List TrxOption) {s : TrxState}
    (hrun : options.foldlM TrxState.applyOption (initialState garbage) = some s) (hinput : s.input = true)
    (hcur : s.fillPage.seal.curLen ≠ 0) :
    trxMain garbage options = some ⟨load s.fillPage.seal.mem 0 s.fillPage.seal.curLen,
      s.fillPage.seal.written, s.fillPage.seal.placed⟩ := by
  rw [trxMain, hrun]
  simp only [hinput, if_true, finish]
  rw [if_neg hcur]

/-- Three files, the second behind an alignment and the third at an offset, and an appended one. -/
def alignedFiles : List TrxOption :=
  [.file [1], .align 16, .file [2, 3], .offset 56, .file [4], .align 4, .append [5]]

theorem trx_layout_one_file :
    ∃ r, trxMain (fun _ => 0) alignedFiles = some r ∧ TrxGood r := by
  have hmain := trxMain_some (fun _ => 0) alignedFiles rfl rfl (by decide)
  refine ⟨_, hmain, ?_⟩
  apply (trx_layout_iff _ _ _ _ hmain).mpr
  · exact ⟨by decide, by decide⟩
  · intro n hn
    simp only [alignedFiles, List.mem_cons, TrxOption.align.injEq, reduceCtorEq, List.not_mem_nil, or_false,
      false_or] at hn
    rcases hn with rfl | rfl
    · exact ⟨4, by decide, rfl⟩
    · exact ⟨2, by decide, rfl⟩

/-- Four files of one byte: the fourth offset, 40, is stored over the byte of the first file. -/
theorem trx_layout_fourth_offset :
    ¬ ∀ (garbage : ℕ → UInt8) (options : List TrxOption), AlignsOk options →
      ∀ r, trxMain garbage options = some r → TrxGood r := by
  intro h
  have hmain := trxMain_some (fun _ => 0) [.file [1], .file [2], .file [3], .file [4]] rfl rfl (by decide)
  have hgood := h _ _ (fun n hn => by simp at hn) _ hmain
  have hbytes := hgood.bytes ⟨false, 28, [1]⟩ List.mem_cons_self
  simp only at hbytes
  rw [load_slice _ (by decide), seal_load (by norm_num)] at hbytes
  revert hbytes
  decide

end Neufbox.Trx
