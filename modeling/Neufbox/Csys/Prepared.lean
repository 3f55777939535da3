import Neufbox.Csys.Blocks

/-! # What the tool prepares

What the options, the files and `process_blocks` make of the entries of the array, before anything is checked. -/
namespace Neufbox.Csys
open Neufbox.Library.Fallible
set_option autoImplicit false
set_option maxHeartbeats 250000
set_option maxRecDepth 120000

/-! ## What the tool prepares -/

/-- The blocks as they are written. -/
structure Prepared (files : Files) (board : BoardInfo) (g : Globals) : Prop where
  listed : board ∈ boards
  ready : ∀ b ∈ g.entries, b.Ready files
  boot : ∀ b ∈ g.boot, b.sizeHdr = 0 ∧ b.sizeCsum = 0 ∧ b.size = board.bootSize
  conf : ∀ b ∈ g.conf, b.sizeHdr = 0 ∧ b.sizeCsum = 0 ∧ b.size = board.confSize
  headed : ∀ b ∈ g.webp.toList ++ g.code.toList, b.sizeHdr ≠ 0
  others : ∀ b ∈ g.others, b.sizeHdr = 0 ∧ b.sizeCsum = 0 ∧ (b.type ≠ .xtra → b.size = 0)
  chain : Chained (board.bootSize + board.confSize) g.placed

/-- A block of a type whose file was looked at. -/
structure CsysBlock.Stated (files : Files) (type : BlockType) (b : CsysBlock) : Prop where
  typed : b.type = type
  hdr : b.sizeHdr = (newBlock type).sizeHdr
  csum : b.sizeCsum = (newBlock type).sizeCsum
  size : b.size = 0
  file : ∀ name, b.fileName = some name → ∃ content, files name = some content ∧ b.fileSize = BitVec.ofNat 32 content.length
  noFile : b.fileName = none → b.fileSize = 0

theorem CsysBlock.New.stated {files : Files} {type : BlockType} {b b' : CsysBlock} (hb : b.New type)
    (h : blockStatFile files b = some b') : b'.Stated files type := by
  unfold blockStatFile at h
  split at h
  next hnone =>
    cases h
    refine ⟨hb.typed, hb.hdr, hb.csum, hb.size, fun name hsome => ?_, fun _ => hb.fileSize⟩
    rw [hnone] at hsome
    cases hsome
  next name hname =>
    obtain ⟨content, hcontent, rfl⟩ := Option.map_eq_some_iff.mp h
    refine ⟨hb.typed, hb.hdr, hb.csum, hb.size, fun name' hsome => ?_, fun hnone => ?_⟩
    · cases hname.symm.trans hsome
      exact ⟨content, hcontent, rfl⟩
    · exact absurd (hname.symm.trans hnone) (by simp)

theorem withAlign_eq (b : CsysBlock) : ∃ a, withAlign b = { b with align := a } := by
  unfold withAlign
  split
  · exact ⟨b.align, rfl⟩
  · exact ⟨defaultBlockAlign, rfl⟩

theorem withAddr_eq (addr : BitVec 32) (b : CsysBlock) : ∃ a, withAddr addr b = { b with addr := a } := by
  unfold withAddr
  split
  · exact ⟨b.addr, rfl⟩
  · exact ⟨addr, rfl⟩

section Placed
variable {files : Files} {type : BlockType} {b : CsysBlock} {offs : BitVec 32}

/-- A block of a fixed size. -/
theorem CsysBlock.Stated.fixed (hb : b.Stated files type) (hhdr : (newBlock type).sizeHdr = 0) (size : BitVec 32)
    (hcsum : (newBlock type).sizeCsum.toNat ≤ 2) : (withAvail { b with size := size }).Ready files :=
  ⟨hb.file, hb.noFile, .inl (hb.hdr.trans hhdr), by rw [← hb.csum] at hcsum; exact hcsum, rfl⟩

/-- A block whose size was made from where it starts. -/
theorem CsysBlock.Stated.sized (hb : b.Stated files type) {sig : List UInt8}
    (hhdr : (newBlock type).sizeHdr = 0 ∨ (newBlock type).sizeHdr = csysHeaderSize ∧ sig.length = 4)
    (hcsum : (newBlock type).sizeCsum.toNat ≤ 2) (addr a : BitVec 32) :
    (withAvail (sizeBlock offs { b with sig := sig, addr := addr, align := a })).Ready files := by
  rw [← hb.hdr] at hhdr
  rw [← hb.csum] at hcsum
  exact ⟨hb.file, hb.noFile, hhdr, hcsum, rfl⟩

theorem placeWebp_ready (hb : b.Stated files .webp) {board : BoardInfo} (hboard : board ∈ boards) :
    (withAvail (placeWebp board offs b)).Ready files := by
  have hsig : ∀ board ∈ boards, board.sigWebp.length = 4 := by decide
  obtain ⟨addr, haddr⟩ := withAddr_eq board.addrWebp { b with sig := board.sigWebp }
  obtain ⟨a, ha⟩ := withAlign_eq { b with sig := board.sigWebp, addr := addr }
  rw [placeWebp, haddr, ha]
  exact hb.sized (.inr ⟨rfl, hsig board hboard⟩) (by decide) addr a

theorem placeCode_ready (hb : b.Stated files .code) (board : BoardInfo) :
    (withAvail (placeCode board offs b)).Ready files := by
  obtain ⟨addr, haddr⟩ := withAddr_eq board.addrCode { b with sig := sigCsys }
  obtain ⟨a, ha⟩ := withAlign_eq { b with sig := sigCsys, addr := addr }
  rw [placeCode, haddr, ha]
  exact hb.sized (.inr ⟨rfl, rfl⟩) (by decide) addr a

/-- Every entry behind the runtime code is extra data that was placed, or is left as it was. -/
theorem mem_placeOthers {bs : List CsysBlock} {c : CsysBlock} (hc : c ∈ placeOthers offs bs) :
    c ∈ bs ∧ c.type ≠ .xtra ∨ ∃ b ∈ bs, ∃ offs a, b.type = .xtra ∧ c = sizeBlock offs { b with align := a } := by
  induction bs generalizing offs with
  | nil => cases hc
  | cons b bs ih =>
    rw [placeOthers] at hc
    split at hc
    next htype =>
      rcases List.mem_cons.mp hc with rfl | hc
      · exact .inl ⟨List.mem_cons_self, htype⟩
      · rcases ih hc with ⟨hmem, hplain⟩ | ⟨b', hmem, hplaced⟩
        · exact .inl ⟨List.mem_cons_of_mem _ hmem, hplain⟩
        · exact .inr ⟨b', List.mem_cons_of_mem _ hmem, hplaced⟩
    next htype =>
      rcases List.mem_cons.mp hc with rfl | hc
      · obtain ⟨a, ha⟩ := withAlign_eq b
        exact .inr ⟨b, List.mem_cons_self, offs, a, not_not.mp htype, by rw [ha]⟩
      · rcases ih hc with ⟨hmem, hplain⟩ | ⟨b', hmem, hplaced⟩
        · exact .inl ⟨List.mem_cons_of_mem _ hmem, hplain⟩
        · exact .inr ⟨b', List.mem_cons_of_mem _ hmem, hplaced⟩

/-! ## The chain of the placed blocks -/

theorem chained_placeOthers (offs : BitVec 32) (bs : List CsysBlock) :
    Chained offs (((placeOthers offs bs).map withAvail).filter fun b => b.type = .xtra) := by
  induction bs generalizing offs with
  | nil => trivial
  | cons b bs ih =>
    rw [placeOthers]
    split
    next htype =>
      have hdrop : ¬ (withAvail b).type = .xtra := htype
      rw [List.map_cons, List.filter_cons_of_neg (by simpa using hdrop)]
      exact ih offs
    next htype =>
      obtain ⟨a, ha⟩ := withAlign_eq b
      have hkeep : (withAvail (sizeBlock offs (withAlign b))).type = .xtra := by
        rw [ha]
        exact not_not.mp htype
      rw [List.map_cons, List.filter_cons_of_pos (by simpa using hkeep)]
      exact ⟨rfl, ih _⟩

/-- A block that may be missing, in front of others. -/
theorem chained_option {o : Option CsysBlock} {bs : List CsysBlock}
    (ho : ∀ b ∈ o, b.size = align (offs + b.fileSize + b.sizeHdr + b.sizeCsum) b.align - offs)
    (hbs : Chained (endOf offs o) bs) : Chained offs ((o.map withAvail).toList ++ bs) := by
  cases o with
  | none =>
    have hsame : endOf offs none = offs := BitVec.add_zero offs
    rw [hsame] at hbs
    exact hbs
  | some b => exact ⟨ho b rfl, hbs⟩

theorem chained_placeBlocks (board : BoardInfo) (g : Globals) :
    Chained (board.bootSize + board.confSize) (placeBlocks board g).placed := by
  unfold placeBlocks Globals.placed
  dsimp only
  refine chained_option ?_ (chained_option ?_ (chained_placeOthers _ _))
  · intro b hb
    obtain ⟨b₀, -, rfl⟩ := Option.map_eq_some_iff.mp hb
    rfl
  · intro b hb
    obtain ⟨b₀, -, rfl⟩ := Option.map_eq_some_iff.mp hb
    rfl

end Placed

/-- What the files and the sizes of the entries are. -/
structure Stated (files : Files) (g : Globals) : Prop where
  boot : ∀ b ∈ g.boot, b.Stated files .boot
  conf : ∀ b ∈ g.conf, b.Stated files .conf
  webp : ∀ b ∈ g.webp, b.Stated files .webp
  code : ∀ b ∈ g.code, b.Stated files .code
  others : ∀ b ∈ g.others, b.Stated files .boot ∨ b.Stated files .xtra

theorem Taken.stated {files : Files} {g g' : Globals} (h : Taken g) (hstat : statBlocks files g = some g') :
    Stated files g' := by
  unfold statBlocks at hstat
  simp only [Option.bind_eq_bind, Option.bind_eq_some_iff] at hstat
  obtain ⟨boot, hboot, conf, hconf, webp, hwebp, code, hcode, others, hothers, hstat⟩ := hstat
  cases hstat
  constructor
  · intro b hb
    obtain ⟨b₀, hb₀, hfile⟩ := mem_of_option_mapM hboot hb
    exact (h.boot b₀ hb₀).stated hfile
  · intro b hb
    obtain ⟨b₀, hb₀, hfile⟩ := mem_of_option_mapM hconf hb
    exact (h.conf b₀ hb₀).stated hfile
  · intro b hb
    obtain ⟨b₀, hb₀, hfile⟩ := mem_of_option_mapM hwebp hb
    exact (h.webp b₀ hb₀).stated hfile
  · intro b hb
    obtain ⟨b₀, hb₀, hfile⟩ := mem_of_option_mapM hcode hb
    exact (h.code b₀ hb₀).stated hfile
  · intro b hb
    obtain ⟨b₀, hb₀, hfile⟩ := mem_of_mapM hothers hb
    exact (h.others b₀ hb₀).imp (fun hnew => hnew.stated hfile) (fun hnew => hnew.stated hfile)

theorem Stated.placed_others {files : Files} {g : Globals} (h : Stated files g) {board : BoardInfo} :
    ∀ b ∈ (placeBlocks board g).others,
      b.Ready files ∧ b.sizeHdr = 0 ∧ b.sizeCsum = 0 ∧ (b.type ≠ .xtra → b.size = 0) := by
  intro b hb
  obtain ⟨c, hc, rfl⟩ := List.mem_map.mp hb
  rcases mem_placeOthers hc with ⟨hmem, hplain⟩ | ⟨b₀, hmem, offs, a, htype, rfl⟩
  · rcases h.others c hmem with hboot | hxtra
    · refine ⟨?_, hboot.hdr, hboot.csum, fun _ => hboot.size⟩
      exact hboot.fixed rfl c.size (by decide)
    · exact absurd hxtra.typed hplain
  · rcases h.others b₀ hmem with hboot | hxtra
    · exact absurd (hboot.typed.symm.trans htype) (by decide)
    · refine ⟨?_, hxtra.hdr, hxtra.csum, fun hne => absurd htype hne⟩
      exact @CsysBlock.Stated.sized _ _ _ offs hxtra b₀.sig (.inl rfl) (by decide) b₀.addr a

theorem Stated.prepared {files : Files} {g : Globals} (h : Stated files g) {board : BoardInfo} (hboard : board ∈ boards) :
    Prepared files board (placeBlocks board g) := by
  have hboot : ∀ b ∈ (placeBlocks board g).boot,
      b.Ready files ∧ b.sizeHdr = 0 ∧ b.sizeCsum = 0 ∧ b.size = board.bootSize := by
    intro b hb
    obtain ⟨b₀, hb₀, rfl⟩ := Option.map_eq_some_iff.mp hb
    exact ⟨(h.boot b₀ hb₀).fixed rfl _ (by decide), (h.boot b₀ hb₀).hdr, (h.boot b₀ hb₀).csum, rfl⟩
  have hconf : ∀ b ∈ (placeBlocks board g).conf,
      b.Ready files ∧ b.sizeHdr = 0 ∧ b.sizeCsum = 0 ∧ b.size = board.confSize := by
    intro b hb
    obtain ⟨b₀, hb₀, rfl⟩ := Option.map_eq_some_iff.mp hb
    exact ⟨(h.conf b₀ hb₀).fixed rfl _ (by decide), (h.conf b₀ hb₀).hdr, (h.conf b₀ hb₀).csum, rfl⟩
  have hwebp : ∀ b ∈ (placeBlocks board g).webp, b.Ready files ∧ b.sizeHdr ≠ 0 := by
    intro b hb
    obtain ⟨b₁, hb₁, rfl⟩ := Option.map_eq_some_iff.mp hb
    obtain ⟨b₀, hb₀, rfl⟩ := Option.map_eq_some_iff.mp hb₁
    have hready := @placeWebp_ready files b₀ (board.bootSize + board.confSize) (h.webp b₀ hb₀) board hboard
    refine ⟨hready, fun hzero => ?_⟩
    have hhdr := (h.webp b₀ hb₀).hdr
    obtain ⟨addr, haddr⟩ := withAddr_eq board.addrWebp { b₀ with sig := board.sigWebp }
    obtain ⟨a, ha⟩ := withAlign_eq { b₀ with sig := board.sigWebp, addr := addr }
    rw [placeWebp, haddr, ha] at hzero
    exact absurd (hhdr.symm.trans hzero) (by decide)
  have hcode : ∀ b ∈ (placeBlocks board g).code, b.Ready files ∧ b.sizeHdr ≠ 0 := by
    intro b hb
    obtain ⟨b₁, hb₁, rfl⟩ := Option.map_eq_some_iff.mp hb
    obtain ⟨b₀, hb₀, rfl⟩ := Option.map_eq_some_iff.mp hb₁
    refine ⟨placeCode_ready (h.code b₀ hb₀) board, fun hzero => ?_⟩
    have hhdr := (h.code b₀ hb₀).hdr
    obtain ⟨addr, haddr⟩ := withAddr_eq board.addrCode { b₀ with sig := sigCsys }
    obtain ⟨a, ha⟩ := withAlign_eq { b₀ with sig := sigCsys, addr := addr }
    rw [placeCode, haddr, ha] at hzero
    exact absurd (hhdr.symm.trans hzero) (by decide)
  have hothers := @Stated.placed_others files g h board
  refine ⟨hboard, ?_, fun b hb => (hboot b hb).2, fun b hb => (hconf b hb).2, ?_, fun b hb => (hothers b hb).2,
    chained_placeBlocks board g⟩
  · intro b hb
    simp only [Globals.entries, List.mem_append, Option.mem_toList] at hb
    rcases hb with (((hb | hb) | hb) | hb) | hb
    · exact (hboot b hb).1
    · exact (hconf b hb).1
    · exact (hwebp b hb).1
    · exact (hcode b hb).1
    · exact (hothers b hb).1
  · intro b hb
    simp only [List.mem_append, Option.mem_toList] at hb
    rcases hb with hb | hb
    · exact (hwebp b hb).2
    · exact (hcode b hb).2

theorem prepared_of_prepare {files : Files} {options : List Opt} {board : BoardInfo} {g : Globals}
    (h : prepare files options = some (board, g)) : Prepared files board g := by
  unfold prepare at h
  simp only [Option.bind_eq_bind, Option.bind_eq_some_iff] at h
  obtain ⟨g₀, hrun, board₀, hboard, g₁, hstat, h⟩ := h
  cases h
  have htaken := taken_options hrun
  exact (htaken.stated hstat).prepared (htaken.board _ hboard)

/-- Without `-d` an image that is left behind is a valid one. -/
theorem invalid_of_prepare {files : Files} {options : List Opt} {board : BoardInfo} {g : Globals}
    (h : prepare files options = some (board, g)) (hoptions : .ignoreInvalid ∉ options) : g.invalidCausesError = true := by
  unfold prepare statBlocks at h
  simp only [Option.bind_eq_bind, Option.bind_eq_some_iff] at h
  obtain ⟨g₀, hrun, board₀, -, g₁, ⟨_, -, _, -, _, -, _, -, _, -, hstat⟩, h⟩ := h
  cases hstat
  cases h
  have hkeep := invalid_of_options hoptions hrun
  exact hkeep

end Neufbox.Csys
