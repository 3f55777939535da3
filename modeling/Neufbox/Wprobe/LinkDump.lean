import Neufbox.Wprobe.Dump

/-! # Dumps of the links

A dump of the links goes over the list from its head in every batch and is to skip the links that were
sent before. The counter of `wprobe_dump_links` is not raised where a link is skipped, so a batch behind
one that sent something skips all of them: only the first batch ever sends. -/
namespace Neufbox.Wprobe
set_option autoImplicit false
set_option maxHeartbeats 250000
set_option maxRecDepth 120000

/-! ## The dump -/

/-- `cb->args`: whether the device is set, and the counter. -/
structure LinkArgs where
  dev : Bool := false
  i : ℕ := 0
  deriving DecidableEq, Repr

/-- The request: the interface attribute `nlmsg_parse` finds, or its error. -/
structure LinkRequest where
  parseErr : Option ℕ := none
  interface : Option (List UInt8) := none
  deriving DecidableEq, Repr

inductive LinkErrno
  | enodev
  | parse (err : ℕ)
  deriving DecidableEq, Repr

/-- The netlink and the generic netlink header. -/
def linkHeaderLen : ℕ := 20

/-- The attribute with the six bytes of an address. -/
def linkMacLen : ℕ := 12

def linkMessageLen : ℕ := linkHeaderLen + linkMacLen

/-- `wprobe_dump_link`: the room that is left, or `none` when the message was taken back. -/
def wprobeDumpLink (room : ℕ) : Option ℕ :=
  if room < linkHeaderLen then none
  else if room - linkHeaderLen < linkMacLen then none
  else some (room - linkHeaderLen - linkMacLen)

def linkMessage (l : WprobeLink) : List UInt8 := l.addr.take 6

/-- The loop over the links, with the counter of the callback in `sent`. -/
def dumpLinksLoop (sent : ℕ) : ℕ → ℕ → List WprobeLink → List (List UInt8) × ℕ
  | i, _, [] => ([], i)
  | i, room, l :: links =>
      if i < sent then dumpLinksLoop sent i room links
      else
        match wprobeDumpLink room with
        | none => ([], i)
        | some room' =>
            let r := dumpLinksLoop sent (i + 1) room' links
            (linkMessage l :: r.1, r.2)

/-- `wprobe_dump_links` on the registered device. -/
def wprobeDumpLinks (room : ℕ) (dev : WprobeIface) (nlh : LinkRequest) (args : LinkArgs) :
    Except LinkErrno (LinkArgs × List (List UInt8)) :=
  let opened : Except LinkErrno Unit :=
    if args.dev then .ok ()
    else match nlh.parseErr with
      | some err => .error (.parse err)
      | none => if nlh.interface ≠ some dev.name then .error .enodev else .ok ()
  opened.map fun _ =>
    let r := dumpLinksLoop args.i 0 room dev.links
    (⟨true, r.2⟩, r.1)

/-- The calls of a dump, one after the other with the same callback. -/
def linkCalls (dev : WprobeIface) (nlh : LinkRequest) (rooms : ℕ → ℕ) :
    ℕ → Except LinkErrno (LinkArgs × List (List UInt8))
  | 0 => wprobeDumpLinks (rooms 0) dev nlh {}
  | n + 1 => (linkCalls dev nlh rooms n).bind fun r => wprobeDumpLinks (rooms (n + 1)) dev nlh r.1

/-! ## One batch -/

theorem wprobeDumpLink_eq (room : ℕ) :
    wprobeDumpLink room = if room < linkMessageLen then none else some (room - linkMessageLen) := by
  rw [wprobeDumpLink, linkMessageLen, linkHeaderLen, linkMacLen]
  split
  · rw [if_pos (by omega)]
  · split
    · rw [if_pos (by omega)]
    · rw [if_neg (by omega), Nat.sub_sub]

/-- A counter that is ahead of the loop's is never reached. -/
theorem dumpLinksLoop_skips {sent i : ℕ} (h : i < sent) (room : ℕ) (links : List WprobeLink) :
    dumpLinksLoop sent i room links = ([], i) := by
  induction links with
  | nil => rfl
  | cons l links ih => rw [dumpLinksLoop, if_pos h, ih]

/-- From the head the loop sends as many links as the message has room for. -/
theorem dumpLinksLoop_first (i room : ℕ) (links : List WprobeLink) :
    dumpLinksLoop 0 i room links = ((links.take (room / linkMessageLen)).map linkMessage,
      i + (links.take (room / linkMessageLen)).length) := by
  have hpos : 0 < linkMessageLen := by decide
  induction links generalizing i room with
  | nil => simp [dumpLinksLoop]
  | cons l links ih =>
    rw [dumpLinksLoop, if_neg (Nat.not_lt_zero i), wprobeDumpLink_eq]
    by_cases hroom : room < linkMessageLen
    · rw [if_pos hroom, Nat.div_eq_of_lt hroom]
      simp
    · have hdiv : room / linkMessageLen = (room - linkMessageLen) / linkMessageLen + 1 :=
        Nat.div_eq_sub_div hpos (by omega)
      simp only [if_neg hroom, ih, hdiv, List.take_succ_cons, List.map_cons, List.length_cons]
      rw [Nat.add_comm (List.length _) 1, Nat.add_assoc]

/-! ## Whole dumps -/

/-- The dump ends with an empty batch, and the batches before it report every link once, in the order of
the list. -/
def DumpsAllLinks (dev : WprobeIface) (nlh : LinkRequest) (rooms : ℕ → ℕ) : Prop :=
  ∃ (n : ℕ) (batches : ℕ → List (List UInt8)),
    (∀ k ≤ n, ∃ args, linkCalls dev nlh rooms k = .ok (args, batches k)) ∧
    (∀ k < n, batches k ≠ []) ∧ batches n = [] ∧
    (List.range n).flatMap batches = dev.links.map linkMessage

section Dump
variable {dev : WprobeIface} {nlh : LinkRequest} (rooms : ℕ → ℕ)

theorem linkCalls_zero (hparse : nlh.parseErr = none) (hdev : nlh.interface = some dev.name) :
    linkCalls dev nlh rooms 0 = .ok (⟨true, (dev.links.take (rooms 0 / linkMessageLen)).length⟩,
      (dev.links.take (rooms 0 / linkMessageLen)).map linkMessage) := by
  rw [linkCalls, wprobeDumpLinks]
  simp only [hparse, hdev, ne_eq, not_true_eq_false, if_false, Bool.false_eq_true, Except.map,
    dumpLinksLoop_first, Nat.zero_add]

/-- The call behind one that sent something sends nothing. -/
theorem linkCalls_one (hparse : nlh.parseErr = none) (hdev : nlh.interface = some dev.name)
    (hsent : 0 < (dev.links.take (rooms 0 / linkMessageLen)).length) :
    linkCalls dev nlh rooms 1 = .ok (⟨true, 0⟩, []) := by
  rw [linkCalls, linkCalls_zero rooms hparse hdev]
  simp only [Except.bind, wprobeDumpLinks, if_true, Except.map, dumpLinksLoop_skips hsent]

variable {rooms}

theorem not_dumpsAllLinks (hparse : nlh.parseErr = none) (hdev : nlh.interface = some dev.name)
    (hrooms : ∀ k, linkMessageLen ≤ rooms k) (hfull : rooms 0 < dev.links.length * linkMessageLen) :
    ¬ DumpsAllLinks dev nlh rooms := by
  have hpos : 0 < linkMessageLen := by decide
  have hmany : rooms 0 / linkMessageLen < dev.links.length := (Nat.div_lt_iff_lt_mul hpos).mpr hfull
  have hone : 1 ≤ rooms 0 / linkMessageLen := (Nat.one_le_div_iff hpos).mpr (hrooms 0)
  have hsent : (dev.links.take (rooms 0 / linkMessageLen)).length = rooms 0 / linkMessageLen :=
    List.length_take_of_le hmany.le
  rintro ⟨n, batches, hcalls, hgo, hend, hall⟩
  have hfirst : batches 0 = (dev.links.take (rooms 0 / linkMessageLen)).map linkMessage := by
    obtain ⟨args, hcall⟩ := hcalls 0 (Nat.zero_le n)
    rw [linkCalls_zero rooms hparse hdev] at hcall
    exact (congrArg Prod.snd (Except.ok.inj hcall)).symm
  have hcount := congrArg List.length hall
  rw [List.length_map] at hcount
  match n, hcalls, hgo, hend, hcount with
  | 0, _, _, _, hcount =>
    rw [List.range_zero, List.flatMap_nil, List.length_nil] at hcount
    omega
  | 1, _, _, _, hcount =>
    rw [List.range_one, List.flatMap_singleton, hfirst, List.length_map, hsent] at hcount
    omega
  | n + 2, hcalls, hgo, _, _ =>
    obtain ⟨args, hcall⟩ := hcalls 1 (by omega)
    rw [linkCalls_one rooms hparse hdev (by omega)] at hcall
    exact hgo 1 (by omega) (congrArg Prod.snd (Except.ok.inj hcall)).symm

/-- A dump reports all links exactly when they fit into its first message. -/
theorem wprobe_dump_links_complete_iff (hparse : nlh.parseErr = none) (hdev : nlh.interface = some dev.name)
    (hrooms : ∀ k, linkMessageLen ≤ rooms k) :
    DumpsAllLinks dev nlh rooms ↔ dev.links.length * linkMessageLen ≤ rooms 0 := by
  constructor
  · intro h
    by_contra hfull
    exact not_dumpsAllLinks hparse hdev hrooms (by omega) h
  · intro hfit
    have hall : dev.links.take (rooms 0 / linkMessageLen) = dev.links :=
      List.take_of_length_le ((Nat.le_div_iff_mul_le (by decide)).mpr hfit)
    have hzero := linkCalls_zero rooms hparse hdev
    rw [hall] at hzero
    by_cases hnil : dev.links = []
    · refine ⟨0, fun _ => [], ?_, by simp, rfl, by simp [hnil]⟩
      intro k hk
      obtain rfl : k = 0 := by omega
      rw [hzero, hnil]
      exact ⟨_, rfl⟩
    · have hone := linkCalls_one rooms hparse hdev (by rw [hall]; exact List.length_pos_of_ne_nil hnil)
      refine ⟨1, fun k => if k = 0 then dev.links.map linkMessage else [], ?_, ?_, rfl, by simp⟩
      · intro k hk
        obtain rfl | rfl : k = 0 ∨ k = 1 := by omega
        · exact ⟨_, hzero⟩
        · exact ⟨_, hone⟩
      · intro k hk
        obtain rfl : k = 0 := by omega
        simpa using hnil

end Dump

/-- An interface with two links. -/
def twoLinks : WprobeIface where
  name := [119]
  addr := none
  linkItems := []
  globalItems := []
  links := [⟨1, [0, 0, 0, 0, 0, 1], 0, fun _ => {}⟩, ⟨2, [0, 0, 0, 0, 0, 2], 0, fun _ => {}⟩]
  val := fun _ => {}
  queryVal := fun _ => {}

theorem wprobe_dump_links_two : DumpsAllLinks twoLinks { interface := some [119] } fun _ => 64 :=
  (wprobe_dump_links_complete_iff rfl rfl fun _ => by decide).mpr (by decide)

theorem wprobe_dump_links_truncated :
    ¬ DumpsAllLinks twoLinks { interface := some [119] } fun _ => 32 :=
  not_dumpsAllLinks rfl rfl (fun _ => by decide) (by decide)

end Neufbox.Wprobe
