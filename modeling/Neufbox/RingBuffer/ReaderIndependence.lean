import Neufbox.RingBuffer.ReadSafety

/-! # Two readers of one device

The read cursor is a field of the device: every open rewinds it and every read advances it, for all
handles at once. A handle therefore sees the whole retained part only when the other handles do not
move the cursor while it reads (`QuietFor`). Under that condition the other handles can be left
out of the run without changing what the handle reads. -/
namespace Neufbox.RingBuffer
open WrapArith ByteStore RunAlong
set_option autoImplicit false
set_option maxHeartbeats 250000
set_option maxRecDepth 120000

/-! ## What one handle reads -/

def bytesFor (f : ℕ) (s : System) : Op → List (Option UInt8)
  | .read g count => if g = f then (exec s (.read g count)).2.bytes else []
  | _ => []

/-- The concatenation of what handle `f` reads in a run. -/
def readBy (f : ℕ) : System → List Op → List (Option UInt8)
  | _, [] => []
  | s, op :: ops => bytesFor f s op ++ readBy f (step s op) ops

def ReaderOp (f : ℕ) : Op → Prop
  | .open g => g ≠ f
  | .read _ _ => True
  | _ => False

def ownReads (f : ℕ) (ops : List Op) : List Op :=
  ops.filter fun
    | .read g _ => g = f
    | _ => false

/-- Another handle than `f` opens only while the cursor is at `out`, and reads only when the cursor
is at `in` or nothing is asked for. -/
def QuietFor (f : ℕ) (s : System) : Op → Prop
  | .open g => g ≠ f → s.dev.pos = s.dev.outPos
  | .read g count => g ≠ f → count = 0 ∨ s.dev.pos = s.dev.inPos
  | _ => True

/-! ## The handles share nothing but the device -/

theorem step_dev_congr {s t : System} (h : s.dev = t.dev) (op : Op) :
    (step s op).dev = (step t op).dev := by
  cases op with
  | llseek f off whence =>
    simp only [step, exec, ringBufferLlseek, h]
    cases seekPos t.dev off whence <;> simp [h]
  | _ => simp [step, exec, ringBufferOpen, ringBufferRead, ringBufferWrite, h]

theorem bytesFor_congr {s t : System} (h : s.dev = t.dev) (f : ℕ) (op : Op) :
    bytesFor f s op = bytesFor f t op := by
  cases op <;> simp [bytesFor, exec, ringBufferRead, h]

theorem readBy_congr {s t : System} (h : s.dev = t.dev) (f : ℕ) (ops : List Op) :
    readBy f s ops = readBy f t ops := by
  induction ops generalizing s t with
  | nil => rfl
  | cons op ops ih =>
    rw [readBy, readBy, bytesFor_congr h, ih (step_dev_congr h op)]

theorem runSteps_dev_congr {s t : System} (h : s.dev = t.dev) (ops : List Op) :
    (runSteps step s ops).dev = (runSteps step t ops).dev := by
  induction ops generalizing s t with
  | nil => exact h
  | cons op ops ih => exact ih (step_dev_congr h op)

/-! ## Quiet steps -/

theorem quiet_open {s : System} {f g : ℕ} (hg : g ≠ f) (h : QuietFor f s (.open g)) :
    (step s (.open g)).dev = s.dev := by
  have hpos : s.dev.pos = s.dev.outPos := h hg
  change ({ s.dev with pos := s.dev.outPos } : RingBufferDevice) = { s.dev with pos := s.dev.pos }
  rw [hpos]

theorem quiet_read {s : System} {log : List UInt8} (hrep : Rep s.dev log) {f g count : ℕ}
    (hg : g ≠ f) (h : QuietFor f s (.read g count)) : (step s (.read g count)).dev = s.dev := by
  have hlen : (ringBufferGet s.dev count).len = 0 := by
    rw [get_len_eq_zero_iff hrep]
    rcases h hg with hc | hp
    · exact Or.inl hc
    · exact Or.inr (by rw [hp])
  simp only [step, exec, ringBufferRead, hlen, Nat.add_zero, Nat.mod_eq_of_lt hrep.pos]

theorem readBy_ownReads {s : System} {log : List UInt8} (hrep : Rep s.dev log) (f : ℕ) (ops : List Op)
    (hops : ∀ op ∈ ops, ReaderOp f op) (hquiet : Along step (QuietFor f) s ops) :
    readBy f s ops = readBy f s (ownReads f ops) ∧
      (runSteps step s ops).dev = (runSteps step s (ownReads f ops)).dev := by
  induction ops generalizing s with
  | nil => exact ⟨rfl, rfl⟩
  | cons op ops ih =>
    have hop := hops op List.mem_cons_self
    have htail : ∀ o ∈ ops, ReaderOp f o := fun o ho => hops o (List.mem_cons_of_mem op ho)
    -- a step of another handle leaves the device as it is
    have hskip : ∀ (hown : ownReads f (op :: ops) = ownReads f ops) (hbytes : bytesFor f s op = [])
        (hdev : (step s op).dev = s.dev),
        readBy f s (op :: ops) = readBy f s (ownReads f (op :: ops)) ∧
          (runSteps step s (op :: ops)).dev = (runSteps step s (ownReads f (op :: ops))).dev := by
      intro hown hbytes hdev
      obtain ⟨h1, h2⟩ := ih (hdev ▸ hrep) htail hquiet.2
      rw [hown, readBy, hbytes, List.nil_append, runSteps_cons, h1, h2]
      exact ⟨readBy_congr hdev f _, runSteps_dev_congr hdev _⟩
    cases op with
    | «open» g => exact hskip rfl rfl (quiet_open hop hquiet.1)
    | read g count =>
      by_cases hg : g = f
      · have hown : ownReads f (.read g count :: ops) = .read g count :: ownReads f ops := by
          simp [ownReads, hg]
        obtain ⟨h1, h2⟩ := ih (step_rep hrep (.read g count)) htail hquiet.2
        rw [hown, readBy, readBy, runSteps_cons, runSteps_cons, h1, h2]
        exact ⟨rfl, rfl⟩
      · exact hskip (by simp [ownReads, hg]) (by simp [bytesFor, hg]) (quiet_read hrep hg hquiet.1)
    | write g buf => exact hop.elim
    | llseek g off whence => exact hop.elim
    | reset => exact hop.elim

/-! ## A handle reads the whole retained part -/

theorem ownReads_eq_map (f : ℕ) (ops : List Op) :
    ∃ counts : List ℕ, ownReads f ops = counts.map (Op.read f) := by
  induction ops with
  | nil => exact ⟨[], rfl⟩
  | cons op ops ih =>
    obtain ⟨counts, hcounts⟩ := ih
    cases op with
    | read g count =>
      by_cases hg : g = f
      · exact ⟨count :: counts, by rw [List.map_cons, ← hcounts, ← hg]; simp [ownReads]⟩
      · exact ⟨counts, by rw [← hcounts]; simp [ownReads, hg]⟩
    | _ => exact ⟨counts, hcounts⟩

theorem readBy_map_read (f : ℕ) (s : System) (counts : List ℕ) :
    readBy f s (counts.map (Op.read f)) = (replies s (counts.map (Op.read f))).flatMap Reply.bytes := by
  induction counts generalizing s with
  | nil => rfl
  | cons c counts ih =>
    rw [List.map_cons, readBy, replies, List.flatMap_cons, ih]
    simp [bytesFor]

theorem reads_complete {s : System} {log : List UInt8} (hrep : Rep s.dev log)
    (hcur : wrapSub 64 s.dev.pos s.dev.outPos = 0) (f : ℕ) (counts : List ℕ) {count : ℕ}
    (hcount : 0 < count)
    (hend : (exec (runSteps step s (counts.map (Op.read f))) (.read f count)).2 = .data []) :
    readBy f s (counts.map (Op.read f)) = (retained s.dev.size log).map some := by
  obtain ⟨hfin, hsize⟩ := run_rep_from hrep (counts.map (Op.read f))
  rw [reads_log] at hfin
  have hk := reads_cursor hrep hcur (Nat.zero_le _) f counts
  have hdata := hfin.get_data hk (by rw [hsize]; omega) count
  have hnil := (Reply.data.inj hend).symm.trans hdata
  have hlen := congrArg List.length hnil
  rw [List.length_map, List.length_take, List.length_drop, retained_length, hsize,
    List.length_nil] at hlen
  rw [readBy_map_read, reads_data hrep hcur (Nat.zero_le _), List.drop_zero,
    List.take_of_length_le (by rw [retained_length]; omega)]

/-- Let handle `f` open the device after any run, and let any handles open and read from then on.
If the others are quiet for `f`, then `f` reads what it would read alone; and when a further read
of it returns nothing, it has read the whole retained part. -/
theorem ring_buffer_reader_independent (mem : List UInt8) (hsize : ValidSize mem.length)
    (before : List Op) (f : ℕ) (ops : List Op) (hops : ∀ op ∈ ops, ReaderOp f op)
    (hquiet : Along step (QuietFor f)
      (step (runSteps step (ringBufferSetupCdev mem) before) (.open f)) ops) :
    let s := step (runSteps step (ringBufferSetupCdev mem) before) (.open f)
    readBy f s ops = readBy f s (ownReads f ops) ∧
      ∀ count, 0 < count → (exec (runSteps step s ops) (.read f count)).2 = .data [] →
        readBy f s ops = (retained mem.length (acceptedLog mem.length before)).map some := by
  intro s
  obtain ⟨hrun, hs⟩ := run_rep hsize before
  have hrep : Rep s.dev (acceptedLog mem.length before) := step_rep hrun (.open f)
  have hcur : wrapSub 64 s.dev.pos s.dev.outPos = 0 :=
    open_cursor _ f (by rw [hrun.outPos]; exact Nat.mod_lt _ (by norm_num))
  obtain ⟨hsame, hdev⟩ := readBy_ownReads hrep f ops hops hquiet
  refine ⟨hsame, fun count hcount hend => ?_⟩
  obtain ⟨counts, hcounts⟩ := ownReads_eq_map f ops
  rw [hcounts] at hsame hdev
  have hend' : (exec (runSteps step s (counts.map (Op.read f))) (.read f count)).2 = .data [] := by
    rw [← hend]
    simp only [exec, ringBufferRead, hdev]
  rw [hsame, reads_complete hrep hcur f counts hcount hend', step_size, hs]

theorem ring_buffer_readers_in_turn :
    readBy 0 (step (runSteps step (ringBufferSetupCdev [0, 0, 0, 0]) [.write 0 [7, 8]]) (.open 0))
      [.read 0 5, .read 1 9] = [some 7, some 8] :=
  (ring_buffer_reader_independent [0, 0, 0, 0] (by decide) [.write 0 [7, 8]] 0
    [.read 0 5, .read 1 9] (by simp [ReaderOp]) (by
      refine ⟨fun h => absurd rfl h, fun _ => Or.inr (by decide), trivial⟩)).2 3 (by norm_num) (by decide)

/-- Two handles open a device of 4096 bytes that holds one byte; the second reads it, and the first
gets nothing. -/
theorem ring_buffer_reader_starved :
    ¬ ∀ (mem : List UInt8), PowTwoSize mem.length → ∀ (before : List Op) (f g : ℕ) (ops : List Op),
      f ≠ g → (∀ op ∈ ops, op = .open g ∨ ∃ count, op = .read f count ∨ op = .read g count) →
      ∀ count, 0 < count →
        (exec (runSteps step (step (runSteps step (ringBufferSetupCdev mem) before) (.open f)) ops)
          (.read f count)).2 = .data [] →
        readBy f (step (runSteps step (ringBufferSetupCdev mem) before) (.open f)) ops =
          (retained mem.length (acceptedLog mem.length before)).map some := by
  intro h
  have hsize : PowTwoSize (List.replicate 4096 (0 : UInt8)).length :=
    ⟨12, by norm_num, by rw [List.length_replicate]; norm_num⟩
  have hread := h (List.replicate 4096 0) hsize [.write 1 [97]] 0 1 [.open 1, .read 1 1] (by norm_num)
    (by simp) 1 (by norm_num) (by decide)
  revert hread
  decide

end Neufbox.RingBuffer
