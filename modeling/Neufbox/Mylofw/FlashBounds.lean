import Neufbox.Mylofw.Decodable

/-! # Blocks and partitions in the flash

The checks of `mkmylofw` add in 32 bits, and compare the length of a file before its header and its padding are
counted. What is written fits into the flash exactly where no sum of the options carries, each file fits with
what is added to it, and the flash was not made smaller than the board's own table needs. -/
namespace Neufbox.Mylofw
open Neufbox.CString Neufbox.FirmwareUtils Neufbox.Library.Fallible Neufbox.WrapArith
set_option autoImplicit false
set_option maxHeartbeats 250000
set_option maxRecDepth 120000

/-! ## What is written -/

def Desc.InFlash (flashSize : BitVec 32) (d : Desc) : Prop :=
  d.dlen.toNat ≤ d.blen.toNat ∧ d.addr.toNat + d.blen.toNat ≤ flashSize.toNat

/-- Every descriptor and every partition is inside the flash. -/
structure InFlash (board : CpxBoard) (g : Globals) : Prop where
  blocks : ∀ d ∈ descs board g, d.InFlash g.flashSize
  parts : ∀ part ∈ g.parts, part.addr.toNat + part.size.toNat ≤ g.flashSize.toNat

/-! ## The options -/

/-- The sum of an option's address and length does not carry; a partition without a length starts in the flash
that is known by then. -/
def Opt.Plain (g : Globals) : Opt → Prop
  | .block arg => ∀ addr blocklen, numberArg (parseArg arg) 0 = some addr → numberArg (parseArg arg) 1 = some blocklen →
      addr.toNat + blocklen.toNat < 2 ^ 32
  | .partition arg => ∀ addr size, numberArg (parseArg arg) 0 = some addr → numberArg (parseArg arg) 1 = some size →
      if size = 0 then addr.toNat ≤ g.flashSize.toNat else addr.toNat + size.toNat < 2 ^ 32
  | _ => True

/-- Every option of a run is plain where it comes. -/
def PlainOptions : Globals → List Opt → Prop
  | _, [] => True
  | g, o :: options => o.Plain g ∧ ∀ g', applyOpt g o = some g' → PlainOptions g' options

/-- No sum of an address and a length carries. -/
def NoCarry (g : Globals) : Prop :=
  (∀ b ∈ g.blocks, b.addr.toNat + b.blocklen.toNat < 2 ^ 32) ∧ ∀ part ∈ g.parts, part.addr.toNat + part.size.toNat < 2 ^ 32

/-- What an option does to the blocks, the partitions and the board. -/
inductive OptEffect (g : Globals) : Opt → Globals → Prop
  | other {o : Opt} {g' : Globals} (plain : o.Plain g) (blocks : g'.blocks = g.blocks) (parts : g'.parts = g.parts)
      (board : ∀ board ∈ g'.board, board ∈ g.board ∨ board ∈ boards) : OptEffect g o g'
  | block {arg : CStr} {g' : Globals} (b : FwBlock) (addr : numberArg (parseArg arg) 0 = some b.addr)
      (len : numberArg (parseArg arg) 1 = some b.blocklen) (blocks : g'.blocks = g.blocks ++ [b])
      (parts : g'.parts = g.parts) (board : g'.board = g.board) : OptEffect g (.block arg) g'
  | partition {arg : CStr} {g' : Globals} (part : FwPart) (size : BitVec 32)
      (addr : numberArg (parseArg arg) 0 = some part.addr) (len : numberArg (parseArg arg) 1 = some size)
      (default : part.size = if size = 0 then g.flashSize - part.addr else size)
      (blocks : g'.blocks = g.blocks ∨
        ∃ b : FwBlock, b.addr = part.addr ∧ b.blocklen = part.size ∧ g'.blocks = g.blocks ++ [b])
      (parts : g'.parts = g.parts ++ [part]) (board : g'.board = g.board) : OptEffect g (.partition arg) g'

theorem parseOptBlock_effect {g g' : Globals} {arg : CStr} (h : parseOptBlock g arg = some g') :
    OptEffect g (.block arg) g' := by
  unfold parseOptBlock at h
  simp only [Option.bind_eq_bind, Option.bind_eq_some_iff] at h
  obtain ⟨-, -, h⟩ := h
  split at h
  · cases h
  · simp only [Option.bind_eq_some_iff] at h
    obtain ⟨argv, hargv, addr, haddr, blocklen, hlen, h⟩ := h
    cases parseFields_eq_some hargv
    split at h
    · cases h
      exact .block ⟨addr, blocklen, 0, none, 0⟩ haddr hlen rfl rfl rfl
    · simp only [Option.bind_eq_some_iff] at h
      obtain ⟨flags, -, h⟩ := h
      split at h
      · cases h
      · cases h
        exact .block ⟨addr, blocklen, flags, _, 0⟩ haddr hlen rfl rfl rfl

theorem parseOptPartition_effect {g g' : Globals} {arg : CStr} (h : parseOptPartition g arg = some g') :
    OptEffect g (.partition arg) g' := by
  unfold parseOptPartition at h
  simp only [Option.bind_eq_bind, Option.bind_eq_some_iff] at h
  obtain ⟨-, -, h⟩ := h
  split at h
  · cases h
  · simp only [Option.bind_eq_some_iff] at h
    obtain ⟨argv, hargv, addr, haddr, size, hsize, flags, -, param, -, h⟩ := h
    cases parseFields_eq_some hargv
    split at h
    · cases h
      exact .partition _ size haddr hsize rfl (Or.inl rfl) rfl rfl
    · split at h
      · cases h
      · cases h
        exact .partition _ size haddr hsize rfl (Or.inr ⟨_, rfl, rfl, rfl⟩) rfl rfl

theorem applyOpt_effect {g g' : Globals} {o : Opt} (h : applyOpt g o = some g') : OptEffect g o g' := by
  cases o with
  | block arg => exact parseOptBlock_effect h
  | partition arg => exact parseOptPartition_effect h
  | board arg =>
    simp only [applyOpt, parseOptBoard, Option.bind_eq_bind, Option.bind_eq_some_iff] at h
    obtain ⟨-, -, board, hboard, h⟩ := h
    cases h
    refine .other trivial rfl rfl fun board' hboard' => Or.inr ?_
    cases hboard'
    exact List.mem_of_find?_eq_some hboard
  | flags arg =>
    simp only [applyOpt, parseOptFlags, Option.bind_eq_bind, Option.bind_eq_some_iff] at h
    obtain ⟨-, -, flags, -, h⟩ := h
    cases h
    exact .other trivial rfl rfl fun board hboard => Or.inl hboard
  | help => cases h
  | id arg =>
    simp only [applyOpt, parseOptId, Option.bind_eq_bind, Option.bind_eq_some_iff] at h
    obtain ⟨-, -, argv, -, vid, -, did, -, svid, -, sdid, -, rev, -, h⟩ := h
    cases h
    exact .other trivial rfl rfl fun board hboard => Or.inl hboard
  | rev arg =>
    simp only [applyOpt, parseOptRev, Option.bind_eq_bind, Option.bind_eq_some_iff] at h
    obtain ⟨-, -, rev, -, h⟩ := h
    cases h
    exact .other trivial rfl rfl fun board hboard => Or.inl hboard
  | size arg =>
    simp only [applyOpt, parseOptSize, Option.bind_eq_bind, Option.bind_eq_some_iff] at h
    obtain ⟨-, -, size, -, h⟩ := h
    cases h
    exact .other trivial rfl rfl fun board hboard => Or.inl hboard
  | verbose =>
    cases h
    exact .other trivial rfl rfl fun board hboard => Or.inl hboard
  | invalid => cases h

theorem forall_mem_concat {α : Type} {P : α → Prop} {xs : List α} {x : α} :
    (∀ y ∈ xs ++ [x], P y) ↔ (∀ y ∈ xs, P y) ∧ P x := by
  rw [List.forall_mem_append, List.forall_mem_singleton]

/-- The length up to the end of the flash. -/
theorem toNat_add_sub_lt_iff (addr flashSize : BitVec 32) :
    addr.toNat + (flashSize - addr).toNat < 2 ^ 32 ↔ addr.toNat ≤ flashSize.toNat := by
  have hsub := BitVec.toNat_sub flashSize addr
  have h1 := addr.isLt
  have h2 := flashSize.isLt
  omega

/-- A statement about two numbers that were read. -/
theorem forall_read_iff {α β : Type} {P : α → β → Prop} {x : Option α} {y : Option β} {a : α} {b : β}
    (hx : x = some a) (hy : y = some b) : (∀ a' b', x = some a' → y = some b' → P a' b') ↔ P a b := by
  subst hx hy
  constructor
  · exact fun h => h a b rfl rfl
  · rintro h a' b' ⟨⟩ ⟨⟩
    exact h

theorem OptEffect.noCarry_iff {g g' : Globals} {o : Opt} (h : OptEffect g o g') : NoCarry g' ↔ NoCarry g ∧ o.Plain g := by
  cases h with
  | other plain blocks parts board => rw [NoCarry, NoCarry, blocks, parts, and_iff_left plain]
  | block b addr len blocks parts board =>
    rw [Opt.Plain, forall_read_iff addr len, NoCarry, NoCarry, blocks, parts, forall_mem_concat]
    exact and_right_comm
  | partition part size addr len default blocks parts board =>
    have hsum : (if size = 0 then part.addr.toNat ≤ g.flashSize.toNat else part.addr.toNat + size.toNat < 2 ^ 32) ↔
        part.addr.toNat + part.size.toNat < 2 ^ 32 := by
      rw [default]
      split
      · exact (toNat_add_sub_lt_iff _ _).symm
      · exact Iff.rfl
    rw [Opt.Plain, forall_read_iff addr len, hsum, NoCarry, NoCarry, parts, forall_mem_concat]
    rcases blocks with hsame | ⟨b, haddr, hlen, hmore⟩
    · rw [hsame, and_assoc]
    · rw [hmore, forall_mem_concat, haddr, hlen]
      constructor
      · exact fun hall => ⟨⟨hall.1.1, hall.2.1⟩, hall.2.2⟩
      · exact fun hall => ⟨⟨hall.1.1, hall.2⟩, hall.1.2, hall.2⟩

theorem noCarry_of_foldlM {options : List Opt} {g g' : Globals} (hrun : options.foldlM applyOpt g = some g') :
    NoCarry g' ↔ NoCarry g ∧ PlainOptions g options := by
  induction options generalizing g with
  | nil =>
    cases hrun
    exact (and_iff_left trivial).symm
  | cons o options ih =>
    rw [List.foldlM_cons, Option.bind_eq_bind, Option.bind_eq_some_iff] at hrun
    obtain ⟨g₁, hstep, hrun⟩ := hrun
    have hrest : PlainOptions g (o :: options) ↔ o.Plain g ∧ PlainOptions g₁ options := by
      refine and_congr_right fun _ => ⟨fun hall => hall g₁ hstep, fun hplain g₂ hg₂ => ?_⟩
      rw [hstep, Option.some.injEq] at hg₂
      exact hg₂ ▸ hplain
    rw [ih hrun, (applyOpt_effect hstep).noCarry_iff, hrest, and_assoc]

theorem noCarry_options {options : List Opt} {g : Globals} (hrun : options.foldlM applyOpt initialGlobals = some g) :
    NoCarry g ↔ PlainOptions initialGlobals options := by
  rw [noCarry_of_foldlM hrun]
  refine and_iff_right ⟨fun b hb => ?_, fun part hpart => ?_⟩
  · cases hb
  · cases hpart

/-! ## The checks -/

/-- The file of a block with its header and its padding, as a descriptor counts it, is no longer than the block. -/
def FwBlock.FileFits (files : Files) (flashSize : BitVec 32) (b : FwBlock) : Prop :=
  ∀ name content, b.name = some name → files name = some content →
    ((if b.haveHdr then 8 else 0) + roundUp content.length 4) % 2 ^ 32 ≤ (blockLength flashSize b).toNat

/-- A sum that passed its check is in the flash if it did not carry. -/
theorem add_le_iff_lt {addr len flashSize : BitVec 32} (h : (addr + len).toNat ≤ flashSize.toNat) :
    addr.toNat + len.toNat ≤ flashSize.toNat ↔ addr.toNat + len.toNat < 2 ^ 32 := by
  have hadd := BitVec.toNat_add addr len
  have hflash := flashSize.isLt
  omega

theorem blockLength_le_iff_lt {flashSize : BitVec 32} {b : FwBlock} (h : (b.addr + b.blocklen).toNat ≤ flashSize.toNat) :
    b.addr.toNat + (blockLength flashSize b).toNat ≤ flashSize.toNat ↔ b.addr.toNat + b.blocklen.toNat < 2 ^ 32 := by
  unfold blockLength
  split
  · rename_i hzero
    have hsame : b.addr + 0 = b.addr := BitVec.add_zero b.addr
    rw [hzero, hsame] at h
    have hsub := BitVec.toNat_sub flashSize b.addr
    have haddr := b.addr.isLt
    have hflash := flashSize.isLt
    have hlen : b.blocklen.toNat = 0 := by
      rw [hzero]
      rfl
    omega
  · exact add_le_iff_lt h

theorem processFile_inFlash {files : Files} {flashSize : BitVec 32} {b b' : FwBlock} (hb : b.Fresh)
    (h : processFile files flashSize b = some b') :
    b'.desc.InFlash flashSize ↔ b.addr.toNat + b.blocklen.toNat < 2 ^ 32 ∧ b.FileFits files flashSize := by
  have hready := processFile_ready hb h
  unfold processFile at h
  split at h
  · cases h
  next hsum =>
    split at h
    next hname =>
      cases h
      have hfits : b.FileFits files flashSize := fun name content hsome => by
        rw [hname] at hsome
        cases hsome
      have hdlen : b.dlen.toNat = 0 := by
        obtain ⟨hsize, hflags⟩ := hready.empty hname
        have hhdr : ¬b.haveHdr := by
          unfold FwBlock.haveHdr
          rw [hflags]
          decide
        rw [FwBlock.dlen, if_neg hhdr, hsize]
        rfl
      show b.dlen.toNat ≤ b.blocklen.toNat ∧ b.addr.toNat + b.blocklen.toNat ≤ flashSize.toNat ↔ _
      rw [hdlen, and_iff_right (Nat.zero_le _), and_iff_left hfits, add_le_iff_lt (not_lt.mp hsum)]
    next name hname =>
      simp only [Option.bind_eq_bind, Option.bind_eq_some_iff] at h
      obtain ⟨content, hcontent, h⟩ := h
      split at h
      · cases h
      · cases h
        have hfits : b.FileFits files flashSize ↔
            ((if b.haveHdr then 8 else 0) + roundUp content.length 4) % 2 ^ 32 ≤ (blockLength flashSize b).toNat := by
          constructor
          · exact fun hall => hall name content hname hcontent
          · intro hle name' content' hname' hcontent'
            rw [hname, Option.some.injEq] at hname'
            rw [← hname', hcontent, Option.some.injEq] at hcontent'
            exact hcontent' ▸ hle
        obtain ⟨content', hcontent', hsize⟩ := hready.file name hname
        cases hcontent.symm.trans hcontent'
        show FwBlock.dlen _ ≤ _ ∧ b.addr.toNat + (blockLength flashSize b).toNat ≤ flashSize.toNat ↔ _
        rw [blockLength_le_iff_lt (not_lt.mp hsum), hfits, BitVec.le_def, dlen_eq, FwBlock.regionLen, hsize, and_comm]
        exact Iff.rfl

theorem OptEffect.board_mem {g g' : Globals} {o : Opt} (h : OptEffect g o g') (hg : ∀ board ∈ g.board, board ∈ boards) :
    ∀ board ∈ g'.board, board ∈ boards := by
  cases h with
  | other plain blocks parts board => exact fun b hb => (board b hb).elim (hg b) id
  | block b addr len blocks parts board => exact board ▸ hg
  | partition part size addr len default blocks parts board => exact board ▸ hg

theorem board_mem_boards {options : List Opt} {g : Globals} {board : CpxBoard}
    (hrun : options.foldlM applyOpt initialGlobals = some g) (hboard : g.board = some board) : board ∈ boards := by
  refine foldlM_preserves (I := fun g => ∀ board ∈ g.board, board ∈ boards) ?_ ?_ hrun board hboard
  · exact fun o _ s s' hs hstep => (applyOpt_effect hstep).board_mem hs
  · intro board hnone
    cases hnone

theorem tableDesc_inFlash_iff {board : CpxBoard} (hboard : board ∈ boards) (flashSize : BitVec 32) :
    (tableDesc board).InFlash flashSize ↔ board.partOffset.toNat + board.partSize.toNat ≤ flashSize.toNat := by
  have hroom : ∀ board ∈ boards, (BitVec.ofNat 32 partTableLen).toNat ≤ board.partSize.toNat := by decide
  exact and_iff_right (hroom board hboard)

/-- The steps of a run that succeeds. -/
theorem steps_of_prepare {files : Files} {options : List Opt} {board : CpxBoard} {g : Globals}
    (h : prepare files options = some (board, g)) :
    ∃ g₀, options.foldlM applyOpt initialGlobals = some g₀ ∧ g₀.board = some board ∧
      g₀.blocks.mapM (processFile files g₀.flashSize) = some g.blocks ∧ g.parts = g₀.parts ∧
      g.flashSize = g₀.flashSize ∧ g₀.parts.all (partitionFits g₀.flashSize) := by
  unfold prepare at h
  simp only [Option.bind_eq_bind, Option.bind_eq_some_iff] at h
  obtain ⟨g₀, hrun, board₀, hboard, h⟩ := h
  split at h
  · cases h
  · simp only [Option.bind_eq_some_iff] at h
    obtain ⟨g₁, hfiles, g₂, hparts, h⟩ := h
    cases h
    unfold processPartitions at hparts
    split at hparts
    next hall =>
      cases hparts
      unfold processFiles at hfiles
      simp only [Option.bind_eq_bind, Option.bind_eq_some_iff] at hfiles
      obtain ⟨blocks, hblocks, hfiles⟩ := hfiles
      cases hfiles
      exact ⟨g₀, hrun, hboard, hblocks, rfl, rfl, hall⟩
    · cases hparts

theorem inFlash_iff {files : Files} {options : List Opt} {board : CpxBoard} {g g₀ : Globals}
    (hrun : options.foldlM applyOpt initialGlobals = some g₀) (hboard : g₀.board = some board)
    (hblocks : g₀.blocks.mapM (processFile files g₀.flashSize) = some g.blocks) (hparts : g.parts = g₀.parts)
    (hflash : g.flashSize = g₀.flashSize) (hfits : g₀.parts.all (partitionFits g₀.flashSize)) :
    InFlash board g ↔ NoCarry g₀ ∧ (∀ b ∈ g₀.blocks, b.FileFits files g₀.flashSize) ∧
      (g₀.parts ≠ [] → board.partOffset.toNat + board.partSize.toNat ≤ g₀.flashSize.toNat) := by
  have hfresh := (taken_options hrun).blocks
  have hdescs : (∀ b ∈ g.blocks, b.desc.InFlash g.flashSize) ↔
      ∀ b ∈ g₀.blocks, b.addr.toNat + b.blocklen.toNat < 2 ^ 32 ∧ b.FileFits files g₀.flashSize := by
    rw [hflash]
    exact forall_mem_iff_of_mapM hblocks fun b hb b' hb' => processFile_inFlash (hfresh b hb) hb'
  have htable : (∀ d ∈ if g.parts = [] then [] else [tableDesc board], d.InFlash g.flashSize) ↔
      (g₀.parts ≠ [] → board.partOffset.toNat + board.partSize.toNat ≤ g₀.flashSize.toNat) := by
    rw [hparts, hflash]
    split
    next hnil => simp [hnil]
    next hne =>
      rw [List.forall_mem_singleton, tableDesc_inFlash_iff (board_mem_boards hrun hboard)]
      exact ⟨fun hle _ => hle, fun himp => himp hne⟩
  have hall : (∀ part ∈ g.parts, part.addr.toNat + part.size.toNat ≤ g.flashSize.toNat) ↔
      ∀ part ∈ g₀.parts, part.addr.toNat + part.size.toNat < 2 ^ 32 := by
    rw [hparts, hflash]
    refine forall₂_congr fun part hpart => add_le_iff_lt ?_
    have hpart := List.all_eq_true.mp hfits part hpart
    rw [partitionFits, Bool.and_eq_true, decide_eq_true_iff, decide_eq_true_iff] at hpart
    exact hpart.2
  have hinFlash : InFlash board g ↔ (∀ d ∈ descs board g, d.InFlash g.flashSize) ∧
      ∀ part ∈ g.parts, part.addr.toNat + part.size.toNat ≤ g.flashSize.toNat :=
    ⟨fun h => ⟨h.blocks, h.parts⟩, fun h => ⟨h.1, h.2⟩⟩
  rw [hinFlash, hall, descs, List.forall_mem_append, htable, List.forall_mem_map, hdescs]
  constructor
  · rintro ⟨⟨htab, hb⟩, hp⟩
    exact ⟨⟨fun b hmem => (hb b hmem).1, hp⟩, fun b hmem => (hb b hmem).2, htab⟩
  · rintro ⟨⟨hb, hp⟩, hf, htab⟩
    exact ⟨⟨htab, fun b hmem => ⟨hb b hmem, hf b hmem⟩⟩, hp⟩

/-- The descriptors of the file are those of `descs`, and they and the partitions are inside the flash if and only
if no sum of an option carries, the files fit with what is added to them and the board's table is in the flash. -/
theorem mkmylofw_inFlash_iff (files : Files) (options : List Opt) (board : CpxBoard) (g : Globals)
    (h : prepare files options = some (board, g)) :
    ∃ g₀ image data, options.foldlM applyOpt initialGlobals = some g₀ ∧ mkmylofw files options = some image ∧
      readDescs image.length (image.drop 40) = some (descs board g, data) ∧
      (InFlash board g ↔ PlainOptions initialGlobals options ∧ (∀ b ∈ g₀.blocks, b.FileFits files g₀.flashSize) ∧
        (g₀.parts ≠ [] → board.partOffset.toNat + board.partSize.toNat ≤ g₀.flashSize.toNat)) := by
  obtain ⟨g₀, hrun, hboard, hblocks, hparts, hflash, hfits⟩ := steps_of_prepare h
  refine ⟨g₀, writeOut files board g, tableData g.parts ++ g.blocks.flatMap (FwBlock.data files), hrun, ?_, ?_, ?_⟩
  · rw [mkmylofw, h]
    rfl
  · rw [writeOut_eq]
    exact readDescs_body files board g _
  · rw [inFlash_iff hrun hboard hblocks hparts hflash hfits, noCarry_options hrun]

theorem mkmylofw_inFlash_small :
    ∃ board g, prepare (oneFile [1, 2, 3, 4, 5]) [.board (.lit "wp54g"), .block (.lit "0x20000:16:h:k")] =
      some (board, g) ∧ InFlash board g := by
  have hsome : (prepare (oneFile [1, 2, 3, 4, 5])
      [.board (.lit "wp54g"), .block (.lit "0x20000:16:h:k")]).isSome = true := by
    decide +kernel
  obtain ⟨⟨board, g⟩, hprepare⟩ := Option.isSome_iff_exists.mp hsome
  obtain ⟨g₀, image, data, hrun, -, -, hiff⟩ := mkmylofw_inFlash_iff _ _ board g hprepare
  have heval : ([Opt.board (.lit "wp54g"), .block (.lit "0x20000:16:h:k")].foldlM applyOpt initialGlobals).all
      (fun g => g.blocks = [⟨0x20000, 16, blockFlagHavehdr, some [107], 0⟩] ∧ g.parts.isEmpty) = true := by
    decide +kernel
  rw [hrun, Option.all_some, decide_eq_true_iff, List.isEmpty_iff] at heval
  obtain ⟨hblocks, hparts⟩ := heval
  refine ⟨board, g, hprepare, hiff.mpr ⟨?_, ?_, fun hne => absurd hparts hne⟩⟩
  · refine (noCarry_options hrun).mp ⟨?_, ?_⟩
    · rw [hblocks, List.forall_mem_singleton]
      decide
    · rw [hparts]
      exact fun part hpart => by cases hpart
  · rw [hblocks, List.forall_mem_singleton]
    intro name content hname hfile
    cases hname
    cases hfile
    have hlen : blockLength g₀.flashSize ⟨0x20000, 16, blockFlagHavehdr, some [107], 0⟩ = 16 := if_neg (by decide)
    rw [hlen]
    decide

/-- A file of 5 bytes passes for a block of 8; with its header and its padding it has 16. -/
theorem mkmylofw_header_outside :
    ∃ board g, prepare (oneFile [1, 2, 3, 4, 5]) [.board (.lit "wp54g"), .block (.lit "0x20000:8:h:k")] =
      some (board, g) ∧ ¬InFlash board g := by
  have heval : (prepare (oneFile [1, 2, 3, 4, 5]) [.board (.lit "wp54g"), .block (.lit "0x20000:8:h:k")]).any
      (fun r => r.2.blocks = [⟨0x20000, 8, blockFlagHavehdr, some [107], 5⟩]) = true := by
    decide +kernel
  obtain ⟨⟨board, g⟩, hprepare, hblocks⟩ := (Option.any_eq_true _ _).mp heval
  refine ⟨board, g, hprepare, fun hin => ?_⟩
  have hmem : FwBlock.desc ⟨0x20000, 8, blockFlagHavehdr, some [107], 5⟩ ∈ descs board g := by
    refine List.mem_append_right _ (List.mem_map_of_mem ?_)
    rw [of_decide_eq_true hblocks]
    exact List.mem_singleton_self _
  exact absurd (hin.blocks _ hmem).1 (by decide)

end Neufbox.Mylofw
