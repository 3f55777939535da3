import Neufbox.Csys.Prepared

/-! # The layout of an image

Every file has to be found in the image, every block has to be as long as its size says, the header of a block
has to say how much follows it, and the flash has to have room for the blocks. `mkcsysimg_layout_iff` says for
which options and files this is so. -/
namespace Neufbox.Csys
open Neufbox.CString Neufbox.Memory
set_option autoImplicit false
set_option maxHeartbeats 250000
set_option maxRecDepth 120000

/-! ## Layout -/

structure WellFormed (files : Files) (board : BoardInfo) (g : Globals) (image : List UInt8) : Prop where
  count : g.numBlocks ≤ maxNumBlocks
  blocks : image = g.written.flatMap (CsysBlock.bytes files)
  holds : ∀ b ∈ g.entries, ∀ name content, b.fileName = some name → files name = some content → content <:+: image
  sizes : ∀ b ∈ g.written, (b.bytes files).length = b.size.toNat
  headers : ∀ b ∈ g.webp.toList ++ g.code.toList, leWord (((b.bytes files).drop 8).take 4) = (b.bytes files).length - 12
  flash : board.bootSize.toNat + board.confSize.toNat +
    ((g.webp.toList ++ (g.code.toList ++ g.others)).map fun b => b.size.toNat).sum ≤ board.flashSize.toNat

/-! ## The whole image -/

/-- The images that `mkcsysimg` lays out as it should. -/
structure Fits (files : Files) (board : BoardInfo) (g : Globals) : Prop where
  count : g.numBlocks ≤ maxNumBlocks
  files : ∀ b ∈ g.entries, ∀ name content, b.fileName = some name → files name = some content → content.length < 2 ^ 32
  units : UnitBlocks (board.bootSize.toNat + board.confSize.toNat) g.placed

theorem boards_sizes {board : BoardInfo} (h : board ∈ boards) :
    (board.bootSize + board.confSize).toNat = board.bootSize.toNat + board.confSize.toNat ∧
      board.bootSize.toNat + board.confSize.toNat ≤ board.flashSize.toNat := by
  have hall : ∀ board ∈ boards, (board.bootSize + board.confSize).toNat = board.bootSize.toNat + board.confSize.toNat ∧
      board.bootSize.toNat + board.confSize.toNat ≤ board.flashSize.toNat := by
    decide
  exact hall board h

theorem mem_written_of_mem_placed {g : Globals} {b : CsysBlock} (h : b ∈ g.placed) : b ∈ g.written :=
  List.mem_append_right _ (List.mem_append_right _ h)

theorem mem_entries_of_mem_written {g : Globals} {b : CsysBlock} (h : b ∈ g.written) : b ∈ g.entries := by
  simp only [Globals.written, Globals.placed, Globals.entries, List.mem_append, List.mem_filter] at h ⊢
  tauto

section Image
variable {files : Files} {board : BoardInfo} {g : Globals} (h : Prepared files board g)
include h

/-- Entries that are not placed take no room. -/
theorem sum_placed : (g.placed.map fun b => b.size.toNat).sum =
    ((g.webp.toList ++ (g.code.toList ++ g.others)).map fun b => b.size.toNat).sum := by
  have hothers : ∀ bs : List CsysBlock, (∀ b ∈ bs, b.type ≠ .xtra → b.size = 0) →
      ((bs.filter fun b => b.type = .xtra).map fun b => b.size.toNat).sum = (bs.map fun b => b.size.toNat).sum := by
    intro bs hbs
    induction bs with
    | nil => rfl
    | cons b bs ih =>
      have hrest := ih fun c hc => hbs c (List.mem_cons_of_mem _ hc)
      by_cases htype : b.type = .xtra
      · rw [List.filter_cons_of_pos (by simpa using htype), List.map_cons, List.sum_cons, hrest, List.map_cons, List.sum_cons]
      · rw [List.filter_cons_of_neg (by simpa using htype), hrest, List.map_cons, List.sum_cons,
          hbs b List.mem_cons_self htype]
        exact (Nat.zero_add _).symm
  rw [Globals.placed]
  simp only [List.map_append, List.sum_append]
  rw [hothers g.others fun b hb => (h.others b hb).2.2]

theorem headed_of_sizeHdr {b : CsysBlock} (hb : b ∈ g.placed) (hhdr : b.sizeHdr ≠ 0) : b ∈ g.webp.toList ++ g.code.toList := by
  simp only [Globals.placed, List.mem_append, List.mem_filter] at hb ⊢
  rcases hb with hb | hb | ⟨hb, -⟩
  · exact .inl hb
  · exact .inr hb
  · exact absurd (h.others b hb).1 hhdr

/-- A block of a fixed size is as long as that. -/
theorem fixed_bytes_length {b : CsysBlock} (hb : b ∈ g.boot.toList ++ g.conf.toList) (hmem : b ∈ g.entries)
    (havail : b.fileSize.toNat ≤ b.sizeAvail.toNat) : (b.bytes files).length = b.size.toNat := by
  have hplain : b.sizeHdr = 0 ∧ b.sizeCsum = 0 := by
    simp only [List.mem_append, Option.mem_toList] at hb
    rcases hb with hb | hb
    · exact ⟨(h.boot b hb).1, (h.boot b hb).2.1⟩
    · exact ⟨(h.conf b hb).1, (h.conf b hb).2.1⟩
  have hready := h.ready b hmem
  rw [hready.bytes_length havail, hready.avail, hplain.1, hplain.2]
  simp

/-- What is written takes no more than the parts of the flash. -/
theorem written_length_le (hsizes : ∀ b ∈ g.written, (b.bytes files).length = b.size.toNat) :
    (g.written.flatMap (CsysBlock.bytes files)).length ≤
      board.bootSize.toNat + board.confSize.toNat + (g.placed.map fun b => b.size.toNat).sum := by
  have hboot : (g.boot.toList.map fun b => b.size.toNat).sum ≤ board.bootSize.toNat := by
    cases hcase : g.boot with
    | none => simp
    | some b => simp [(h.boot b hcase).2.2]
  have hconf : (g.conf.toList.map fun b => b.size.toNat).sum ≤ board.confSize.toNat := by
    cases hcase : g.conf with
    | none => simp
    | some b => simp [(h.conf b hcase).2.2]
  rw [List.length_flatMap, List.map_congr_left hsizes, Globals.written]
  simp only [List.map_append, List.sum_append]
  omega

/-- A file that fits in 32 bits is written as a whole. -/
theorem content_eq {b : CsysBlock} (hb : b ∈ g.entries) {name content : List UInt8} (hname : b.fileName = some name)
    (hfile : files name = some content) (hlt : content.length < 2 ^ 32) :
    b.content files = content ∧ b.fileSize.toNat = content.length := by
  obtain ⟨content', hfile', hsize⟩ := (h.ready b hb).file name hname
  cases hfile.symm.trans hfile'
  have hlen : b.fileSize.toNat = content.length := by
    rw [hsize, BitVec.toNat_ofNat, Nat.mod_eq_of_lt hlt]
  refine ⟨?_, hlen⟩
  unfold CsysBlock.content
  rw [hname]
  dsimp only
  rw [hfile, Option.getD_some, hlen, List.take_length]

omit h in
theorem content_infix {b : CsysBlock} (hb : b ∈ g.written) :
    b.content files <:+: g.written.flatMap (CsysBlock.bytes files) := by
  have hblock : b.content files <:+: b.bytes files :=
    ⟨if b.sizeHdr = 0 then [] else b.header, List.replicate (b.sizeAvail - b.fileSize).toNat b.padc ++ b.csum files, by
      rw [CsysBlock.bytes, List.append_assoc]⟩
  exact hblock.trans (List.infix_of_mem_flatten (List.mem_map_of_mem hb))

theorem wellFormed_iff (hvalid : valid board g = true) :
    WellFormed files board g (writeOutBlocks files g) ↔ Fits files board g := by
  obtain ⟨hoffs, hstart⟩ := boards_sizes h.listed
  simp only [valid, Bool.and_eq_true, List.all_eq_true, decide_eq_true_eq] at hvalid
  obtain ⟨⟨-, hends⟩, havail⟩ := hvalid
  have hready : ∀ b ∈ g.placed, b.Ready files := fun b hb =>
    h.ready b (mem_entries_of_mem_written (mem_written_of_mem_placed hb))
  have hsum := sum_placed h
  have hflashLt := board.flashSize.isLt
  constructor
  · intro hw
    have hflash := hw.flash
    refine ⟨hw.count, fun b hb name content hname hfile => ?_, ?_⟩
    · have hle := (hw.holds b hb name content hname hfile).length_le
      have hlen := written_length_le h hw.sizes
      rw [writeOutBlocks_eq] at hle
      omega
    · rw [← hoffs]
      refine unitBlocks_of_exact hready h.chain
        (fun b hb => havail b (mem_entries_of_mem_written (mem_written_of_mem_placed hb))) (fun b hb => ?_) (by omega)
      exact ⟨hw.sizes b (mem_written_of_mem_placed hb), fun hhdr => hw.headers b (headed_of_sizeHdr h hb hhdr)⟩
  · intro hf
    have hunits := hf.units
    rw [← hoffs] at hunits
    have hexact := exact_of_unitBlocks hready h.chain hunits
    have hroom := sum_of_unitBlocks h.chain hunits (by omega) hends
    refine ⟨hf.count, writeOutBlocks_eq files g, fun b hb name content hname hfile => ?_, fun b hb => ?_, fun b hb => ?_,
      by omega⟩
    · obtain ⟨hcontent, hlen⟩ := content_eq h hb hname hfile (hf.files b hb name content hname hfile)
      rw [writeOutBlocks_eq, ← hcontent]
      by_cases hwritten : b ∈ g.written
      · exact content_infix hwritten
      · -- an entry that is not written has no size, so its file is empty
        have hspare : b ∈ g.others ∧ b.type ≠ .xtra := by
          simp only [Globals.entries, Globals.written, Globals.placed, List.mem_append, List.mem_filter,
            decide_eq_true_eq] at hb hwritten
          tauto
        obtain ⟨hhdr, hcsum, hsize⟩ := h.others b hspare.1
        have hzero := havail b hb
        rw [(h.ready b hb).avail, hsize hspare.2, hhdr, hcsum, hlen] at hzero
        have hnil : content = [] := List.length_eq_zero_iff.mp (Nat.le_zero.mp hzero)
        rw [hcontent, hnil]
        exact List.nil_infix
    · by_cases hplaced : b ∈ g.placed
      · exact (hexact b hplaced).size
      · have hfixed : b ∈ g.boot.toList ++ g.conf.toList := by
          simp only [Globals.written, List.mem_append] at hb ⊢
          tauto
        exact fixed_bytes_length h hfixed (mem_entries_of_mem_written hb) (havail b (mem_entries_of_mem_written hb))
    · have hplaced : b ∈ g.placed := by
        simp only [Globals.placed, List.mem_append] at hb ⊢
        tauto
      exact (hexact b hplaced).header (h.headed b hb)

end Image

/-- An image that is made without `-d` is laid out as it should be if and only if there are at most eight blocks, no
file is as long as four gigabytes, no sum of the layout wraps, and the web pages and the runtime code end one
alignment behind their start. -/
theorem mkcsysimg_layout_iff (files : Files) (options : List Opt) (board : BoardInfo) (g : Globals)
    (output : Option (List UInt8)) (hoptions : .ignoreInvalid ∉ options)
    (hprepare : prepare files options = some (board, g)) (hrun : mkcsysimg files options = some output) :
    ∃ image, output = some image ∧ (WellFormed files board g image ↔ Fits files board g) := by
  have hinvalid := invalid_of_prepare hprepare hoptions
  have hvalid : valid board g = true ∧ output = some (writeOutBlocks files g) := by
    rw [mkcsysimg, hprepare] at hrun
    simp only [Option.bind_eq_bind, Option.bind_some, hinvalid, if_true] at hrun
    split at hrun
    next hvalid =>
      cases hrun
      exact ⟨hvalid, rfl⟩
    · cases hrun
  exact ⟨_, hvalid.2, wellFormed_iff (prepared_of_prepare hprepare) hvalid.1⟩

/-! ## Two runs -/

instance decidableUnitBlocks : ∀ (offs : ℕ) (bs : List CsysBlock), Decidable (UnitBlocks offs bs)
  | _, [] => .isTrue trivial
  | offs, b :: bs =>
    have := decidableUnitBlocks (alignUp (offs + b.need) b.align.toNat) bs
    inferInstanceAs (Decidable (_ ∧ _ ∧ _))

/-- One file of three bytes, named `k`. -/
def shortFile : Files := fun name => if name = [107] then some [1, 2, 3] else none

theorem short_lengths (bs : List CsysBlock) :
    ∀ b ∈ bs, ∀ name content, b.fileName = some name → shortFile name = some content → content.length < 2 ^ 32 := by
  intro b _ name content _ hfile
  unfold shortFile at hfile
  split at hfile
  · cases hfile
    decide
  · cases hfile

theorem run_of_valid {files : Files} {options : List Opt} {board : BoardInfo} {g : Globals}
    (hprepare : prepare files options = some (board, g)) (hvalid : valid board g = true) :
    mkcsysimg files options = some (some (writeOutBlocks files g)) := by
  rw [mkcsysimg, hprepare]
  simp only [Option.bind_eq_bind, Option.bind_some, hvalid, if_true]
  rfl

def shortOptions : List Opt :=
  [.board (.lit "h2br4"), .boot (.lit "k"), .webp none, .code (.lit "k:0x80500000"), .xtra (.lit "k:0x100:0"), .xtra (.lit "k")]

theorem mkcsysimg_layout_short :
    ∃ board g image, prepare shortFile shortOptions = some (board, g) ∧
      mkcsysimg shortFile shortOptions = some (some image) ∧ WellFormed shortFile board g image := by
  have heval : (prepare shortFile shortOptions).any (fun r => valid r.1 r.2 = true ∧ r.2.numBlocks ≤ maxNumBlocks ∧
      UnitBlocks (r.1.bootSize.toNat + r.1.confSize.toNat) r.2.placed) = true := by
    decide +kernel
  obtain ⟨⟨board, g⟩, hprepare, hall⟩ := (Option.any_eq_true _ _).mp heval
  simp only [decide_eq_true_eq] at hall
  obtain ⟨hvalid, hcount, hunits⟩ := hall
  have hrun := run_of_valid hprepare hvalid
  have hoptions : Opt.ignoreInvalid ∉ shortOptions := by simp [shortOptions]
  obtain ⟨image, himage, hiff⟩ := mkcsysimg_layout_iff _ _ board g _ hoptions hprepare hrun
  cases himage
  exact ⟨board, g, _, hprepare, hrun, hiff.mpr ⟨hcount, short_lengths _, hunits⟩⟩

/-- Runtime code of two alignments, whose header says that it is as long as one. -/
theorem mkcsysimg_header_too_small :
    ∃ board g image, prepare shortFile [.board (.lit "h2br4"), .code (.lit "k::16")] = some (board, g) ∧
      mkcsysimg shortFile [.board (.lit "h2br4"), .code (.lit "k::16")] = some (some image) ∧
      ¬ WellFormed shortFile board g image := by
  have heval : (prepare shortFile [.board (.lit "h2br4"), .code (.lit "k::16")]).any (fun r => valid r.1 r.2 = true ∧
      ¬ UnitBlocks (r.1.bootSize.toNat + r.1.confSize.toNat) r.2.placed) = true := by
    decide +kernel
  obtain ⟨⟨board, g⟩, hprepare, hall⟩ := (Option.any_eq_true _ _).mp heval
  simp only [decide_eq_true_eq] at hall
  obtain ⟨hvalid, hunits⟩ := hall
  refine ⟨board, g, _, hprepare, run_of_valid hprepare hvalid, fun hwell => hunits ?_⟩
  exact ((wellFormed_iff (prepared_of_prepare hprepare) hvalid).mp hwell).units

end Neufbox.Csys
