import Neufbox.Library.CString
import Neufbox.Library.Decimal
import Neufbox.Library.Words
import Neufbox.Swconfig.Requests

/-! # Port lists as strings

`swlib_set_attr_string` for an attribute of type `SWITCH_TYPE_PORTS`: the list is taken apart by `strtoul` and a
scan for the next white space, into an array with as many entries as the switch has ports. A write behind the array
is `none`; the message for the kernel has room. -/
namespace Neufbox.Swlib
open Neufbox.CString Neufbox.Decimal Neufbox.Library.Words
open Neufbox.Swconfig (SwitchPort)
set_option autoImplicit false
set_option maxHeartbeats 250000
set_option maxRecDepth 120000

/-! ## The loop -/

def afterSign (str : List UInt8) : List UInt8 := if str.head? = some 45 ∨ str.head? = some 43 then str.tail else str

/-- What `strtoul` reads as a number, white space apart. -/
def StartsNumber (str : List UInt8) : Prop := (afterSign str).head?.any isDigit = true

instance (str : List UInt8) : Decidable (StartsNumber str) := inferInstanceAs (Decidable (_ = true))

/-- The value of `strtoul` with an `unsigned long` of 32 bits. -/
def numberOf (str : List UInt8) : ℕ :=
  let value := digitsValue ((afterSign str).takeWhile isDigit)
  if 2 ^ 32 ≤ value then 2 ^ 32 - 1
  else if str.head? = some 45 then (2 ^ 32 - value) % 2 ^ 32
  else value

/-- `strtoul(ptr, &ptr, 10)`; without a number the pointer stays where it is, in front of the white space. -/
def strtoul (str : List UInt8) : ℕ × List UInt8 :=
  let text := str.dropWhile isSpace
  if StartsNumber text then (numberOf text, (afterSign text).dropWhile isDigit) else (0, str)

structure Port where
  id : BitVec 32
  flags : BitVec 32
  deriving DecidableEq

def portFlagTagged : BitVec 32 := 1

/-- The rest of a word, up to white space. -/
def wordOf (str : List UInt8) : List UInt8 := str.takeWhile fun b => !isSpace b

/-- The pointer behind a word and one separator. -/
def behindWord (str : List UInt8) : List UInt8 := (str.dropWhile fun b => !isSpace b).tail

/-- The entry that one turn of the loop stores. -/
def entryAt (str : List UInt8) : Port where
  id := BitVec.ofNat 32 (strtoul str).1
  flags := (wordOf (strtoul str).2).foldl (fun flags b => if b = 116 then flags ||| portFlagTagged else flags) 0

def nextAt (str : List UInt8) : List UInt8 := behindWord (strtoul str).2

/-- The loop, with the number of turns bounded. -/
def storePorts (ports : ℕ) : ℕ → List Port → List UInt8 → Option (List Port)
  | 0, stored, _ => some stored
  | n + 1, stored, str =>
    if str = [] then some stored
    else if stored.length < ports then storePorts ports n (stored ++ [entryAt str]) (nextAt str)
    else none

/-- The array behind the loop, its first `val.len` entries. -/
def portArray (ports : ℕ) (str : List UInt8) : Option (List Port) := storePorts ports str.length [] str

def Port.sent (port : Port) : SwitchPort := ⟨port.id, port.flags &&& portFlagTagged ≠ 0⟩

/-- `send_attr_ports`: the nest of the message, if there is one. -/
def sendAttrPorts (ports : List Port) : Option (List SwitchPort) := if ports = [] then none else some (ports.map Port.sent)

/-- The ports that the kernel is sent. -/
def portsSent (ports : ℕ) (str : List UInt8) : Option (List SwitchPort) :=
  (portArray ports str).map fun stored => (sendAttrPorts stored).getD []

/-! ## Turns of the loop -/

theorem dropWhile_dropWhile_of_imp {α : Type} {p q : α → Bool} (hpq : ∀ a, p a = true → q a = true) (l : List α) :
    (l.dropWhile p).dropWhile q = l.dropWhile q := by
  induction l with
  | nil => rfl
  | cons a l ih =>
    by_cases ha : p a = true
    · rw [List.dropWhile_cons_of_pos ha, List.dropWhile_cons_of_pos (hpq a ha), ih]
    · rw [List.dropWhile_cons_of_neg ha]

theorem behindWord_cons_space {b : UInt8} (hb : isSpace b = true) (str : List UInt8) : behindWord (b :: str) = str := by
  rw [behindWord, List.dropWhile_cons_of_neg (by simp [hb]), List.tail_cons]

theorem behindWord_cons_word {b : UInt8} (hb : isSpace b = false) (str : List UInt8) :
    behindWord (b :: str) = behindWord str := by
  rw [behindWord, List.dropWhile_cons_of_pos (by simp [hb]), behindWord]

theorem behindWord_digits (str : List UInt8) : behindWord (str.dropWhile isDigit) = behindWord str := by
  rw [behindWord, dropWhile_dropWhile_of_imp fun b hb => by rw [isSpace_of_isDigit hb]; rfl]
  rfl

theorem behindWord_afterSign (str : List UInt8) : behindWord (afterSign str) = behindWord str := by
  unfold afterSign
  split
  · rename_i hsign
    cases str with
    | nil => rfl
    | cons b str =>
      have hb : isSpace b = false := by
        rcases hsign with h | h <;> rw [List.head?_cons, Option.some.injEq] at h <;> rw [h] <;> rfl
      rw [List.tail_cons, behindWord_cons_word hb]
  · rfl

theorem behindWord_length_lt {str : List UInt8} (h : str ≠ []) : (behindWord str).length < str.length := by
  have hpos : 0 < str.length := List.length_pos_iff.mpr h
  have hle : (str.dropWhile fun b => !isSpace b).length ≤ str.length := (List.dropWhile_suffix _).length_le
  rw [behindWord, List.length_tail]
  omega

theorem nextAt_of_number {str : List UInt8} (h : StartsNumber (str.dropWhile isSpace)) :
    nextAt str = behindWord (str.dropWhile isSpace) := by
  rw [nextAt, strtoul]
  simp only [if_pos h]
  rw [behindWord_digits, behindWord_afterSign]

theorem nextAt_of_not_number {str : List UInt8} (h : ¬StartsNumber (str.dropWhile isSpace)) :
    nextAt str = behindWord str := by
  rw [nextAt, strtoul]
  simp only [if_neg h]

theorem not_startsNumber_nil : ¬StartsNumber [] := by decide

theorem nextAt_length_lt {str : List UInt8} (h : str ≠ []) : (nextAt str).length < str.length := by
  by_cases hnum : StartsNumber (str.dropWhile isSpace)
  · rw [nextAt_of_number hnum]
    have hne : str.dropWhile isSpace ≠ [] := fun hnil => not_startsNumber_nil (hnil ▸ hnum)
    exact (behindWord_length_lt hne).trans_le (List.dropWhile_suffix _).length_le
  · rw [nextAt_of_not_number hnum]
    exact behindWord_length_lt h

/-- The entries of an array that is large enough. -/
def entries : ℕ → List UInt8 → List Port
  | 0, _ => []
  | n + 1, str => if str = [] then [] else entryAt str :: entries n (nextAt str)

theorem storePorts_eq (ports : ℕ) {n : ℕ} {str : List UInt8} (hn : str.length ≤ n) {stored : List Port}
    (hstored : stored.length ≤ ports) :
    storePorts ports n stored str =
      if stored.length + (entries n str).length ≤ ports then some (stored ++ entries n str) else none := by
  induction n generalizing str stored with
  | zero =>
    rw [storePorts, entries, List.append_nil, List.length_nil, Nat.add_zero, if_pos hstored]
  | succ n ih =>
    rw [storePorts, entries]
    by_cases hnil : str = []
    · rw [if_pos hnil, if_pos hnil, List.append_nil, List.length_nil, Nat.add_zero, if_pos hstored]
    · rw [if_neg hnil, if_neg hnil]
      have hshort := nextAt_length_lt hnil
      by_cases hroom : stored.length < ports
      · rw [if_pos hroom, ih (by omega) (by rw [List.length_append, List.length_singleton]; omega), List.length_append,
          List.length_singleton, List.length_cons, List.append_assoc, List.singleton_append, Nat.add_assoc,
          Nat.add_comm 1]
      · rw [if_neg hroom, if_neg]
        rw [List.length_cons]
        omega

theorem entries_fuel {n m : ℕ} {str : List UInt8} (hn : str.length ≤ n) (hm : str.length ≤ m) :
    entries n str = entries m str := by
  induction n generalizing m str with
  | zero =>
    have hnil : str = [] := List.eq_nil_of_length_eq_zero (Nat.le_zero.mp hn)
    subst hnil
    cases m <;> rfl
  | succ n ih =>
    by_cases hnil : str = []
    · subst hnil
      cases m <;> rfl
    · have hpos : 0 < str.length := List.length_pos_iff.mpr hnil
      have hshort := nextAt_length_lt hnil
      obtain ⟨m, rfl⟩ := Nat.exists_eq_add_of_le' (Nat.lt_of_lt_of_le hpos hm)
      have hsame : entries n (nextAt str) = entries m (nextAt str) := ih (by omega) (by omega)
      rw [entries, entries, if_neg hnil, if_neg hnil, hsame]

def allEntries (str : List UInt8) : List Port := entries str.length str

theorem allEntries_cons {str : List UInt8} (h : str ≠ []) : allEntries str = entryAt str :: allEntries (nextAt str) := by
  have hpos : 0 < str.length := List.length_pos_iff.mpr h
  have hshort := nextAt_length_lt h
  obtain ⟨n, hn⟩ := Nat.exists_eq_add_of_le' hpos
  rw [allEntries, hn, entries, if_neg h, allEntries, entries_fuel (by omega) le_rfl]

theorem portArray_eq (ports : ℕ) (str : List UInt8) :
    portArray ports str = if (allEntries str).length ≤ ports then some (allEntries str) else none := by
  rw [portArray, storePorts_eq ports le_rfl (Nat.zero_le _), List.length_nil, Nat.zero_add, List.nil_append]
  rfl

/-! ## The number of entries -/

/-- The places where an entry begins: every word, and every white space that neither ends a word nor leads up to a
number. `fresh` says that no word is open. -/
def entryCount (fresh : Bool) : List UInt8 → ℕ
  | [] => 0
  | b :: str =>
    if isSpace b then
      (if fresh ∧ ¬StartsNumber (str.dropWhile isSpace) then 1 else 0) + entryCount true str
    else (if fresh then 1 else 0) + entryCount false str

theorem entryCount_in_word (str : List UInt8) : entryCount false str = entryCount true (behindWord str) := by
  induction str with
  | nil => rfl
  | cons b str ih =>
    by_cases hb : isSpace b = true
    · rw [behindWord_cons_space hb, entryCount, if_pos hb, if_neg (fun h => Bool.false_ne_true h.1), Nat.zero_add]
    · rw [Bool.not_eq_true] at hb
      rw [behindWord_cons_word hb, entryCount, hb, if_neg Bool.false_ne_true, if_neg Bool.false_ne_true, Nat.zero_add, ih]

theorem entryCount_word {b : UInt8} (hb : isSpace b = false) (str : List UInt8) :
    entryCount true (b :: str) = 1 + entryCount true (behindWord (b :: str)) := by
  rw [behindWord_cons_word hb, entryCount, hb, if_neg Bool.false_ne_true, if_pos rfl, entryCount_in_word]

theorem entryCount_blanks {str : List UInt8} (h : StartsNumber (str.dropWhile isSpace)) :
    entryCount true str = entryCount true (str.dropWhile isSpace) := by
  induction str with
  | nil => rfl
  | cons b str ih =>
    by_cases hb : isSpace b = true
    · rw [List.dropWhile_cons_of_pos hb] at h ⊢
      rw [entryCount, if_pos hb, if_neg (fun hno => hno.2 h), Nat.zero_add, ih h]
    · rw [List.dropWhile_cons_of_neg hb]

theorem entryCount_turn {str : List UInt8} (h : str ≠ []) : entryCount true str = 1 + entryCount true (nextAt str) := by
  have hword : ∀ text : List UInt8, text ≠ [] → (∀ b ∈ text.head?, isSpace b = false) →
      entryCount true text = 1 + entryCount true (behindWord text) := by
    intro text hne hhead
    cases text with
    | nil => exact absurd rfl hne
    | cons b text => exact entryCount_word (hhead b rfl) text
  by_cases hnum : StartsNumber (str.dropWhile isSpace)
  · rw [nextAt_of_number hnum, entryCount_blanks hnum]
    refine hword _ (fun hnil => not_startsNumber_nil (hnil ▸ hnum)) fun b hb => ?_
    have hhead := List.head?_dropWhile_not isSpace str
    rw [Option.mem_def.mp hb] at hhead
    exact hhead
  · rw [nextAt_of_not_number hnum]
    cases str with
    | nil => exact absurd rfl h
    | cons b str =>
      by_cases hb : isSpace b = true
      · rw [List.dropWhile_cons_of_pos hb] at hnum
        rw [behindWord_cons_space hb, entryCount, if_pos hb, if_pos ⟨rfl, hnum⟩]
      · exact entryCount_word (Bool.not_eq_true _ ▸ hb) str

theorem allEntries_length (str : List UInt8) : (allEntries str).length = entryCount true str := by
  induction hn : str.length using Nat.strong_induction_on generalizing str with
  | _ n ih =>
    by_cases hnil : str = []
    · subst hnil
      rfl
    · rw [allEntries_cons hnil, entryCount_turn hnil, List.length_cons, Nat.add_comm,
        ih _ (hn ▸ nextAt_length_lt hnil) (nextAt str) rfl]

/-! ## Lists of ports -/

/-- A port number, with a `t` for a tagged port. -/
structure Token where
  digits : List UInt8
  digits_ne_nil : digits ≠ []
  isDigits : ∀ b ∈ digits, isDigit b = true
  tagged : Bool

def Token.number (t : Token) : ℕ := digitsValue t.digits

def Token.suffix (t : Token) : List UInt8 := if t.tagged then [116] else []

def Token.bytes (t : Token) : List UInt8 := t.digits ++ t.suffix

/-- A list of ports: tokens with white space around them. -/
abbrev PortText := Text isSpace Token

/-- The white space that ends the text, without the one separator behind a token. -/
def strayBlanks : ℕ → List (Token × List UInt8) → ℕ
  | lead, [] => lead
  | _, i :: items => strayBlanks (i.2.length - 1) items

def stray (text : PortText) : ℕ := strayBlanks text.lead.length text.items

/-- The number that is stored for a token. -/
def Token.stored (t : Token) : ℕ := if 2 ^ 32 ≤ t.number then 2 ^ 32 - 1 else t.number

def Token.entry (t : Token) : Port := ⟨BitVec.ofNat 32 t.stored, if t.tagged then portFlagTagged else 0⟩

def blankEntry : Port := ⟨0, 0⟩

theorem afterSign_digits {digits : List UInt8} (hne : digits ≠ []) (hdigits : ∀ b ∈ digits, isDigit b = true)
    (rest : List UInt8) : afterSign (digits ++ rest) = digits ++ rest := by
  cases digits with
  | nil => exact absurd rfl hne
  | cons b digits =>
    have hb := hdigits b List.mem_cons_self
    refine if_neg fun hsign => ?_
    rw [List.cons_append, List.head?_cons, Option.some.injEq, Option.some.injEq] at hsign
    rcases hsign with rfl | rfl <;> revert hb <;> decide

/-- What follows the digits of a token does not begin with a digit. -/
def Ends (rest : List UInt8) : Prop := rest.head?.any isDigit = false

theorem strtoul_token {lead : List UInt8} (hlead : ∀ b ∈ lead, isSpace b = true) (t : Token) {rest : List UInt8}
    (hrest : Ends rest) : strtoul (lead ++ (t.digits ++ rest)) = (t.stored, rest) := by
  have hsign := afterSign_digits t.digits_ne_nil t.isDigits rest
  obtain ⟨b, digits, hcons⟩ := List.exists_cons_of_ne_nil t.digits_ne_nil
  have hb : isDigit b = true := t.isDigits b (hcons ▸ List.mem_cons_self)
  have htext : (lead ++ (t.digits ++ rest)).dropWhile isSpace = t.digits ++ rest := by
    rw [dropWhile_blanks hlead, hcons, List.cons_append,
      List.dropWhile_cons_of_neg (by rw [isSpace_of_isDigit hb]; exact Bool.false_ne_true)]
  have hstarts : StartsNumber (t.digits ++ rest) := by
    rw [StartsNumber, hsign, hcons, List.cons_append, List.head?_cons, Option.any_some, hb]
  have htake := takeWhile_digits t.isDigits hrest
  have hdrop : (t.digits ++ rest).dropWhile isDigit = rest := by
    have hsplit := List.takeWhile_append_dropWhile (p := isDigit) (l := t.digits ++ rest)
    rw [htake] at hsplit
    exact List.append_cancel_left hsplit
  have hminus : (t.digits ++ rest).head? ≠ some 45 := by
    rw [hcons, List.cons_append, List.head?_cons, Ne, Option.some.injEq]
    rintro rfl
    revert hb
    decide
  rw [strtoul, htext]
  simp only [if_pos hstarts, hsign, hdrop, numberOf, htake, if_neg hminus]
  rfl

theorem wordOf_suffix (t : Token) {rest : List UInt8} (hrest : ∀ b ∈ rest.head?, isSpace b = true) :
    wordOf (t.suffix ++ rest) = t.suffix ∧ behindWord (t.suffix ++ rest) = rest.tail := by
  have hplain : wordOf rest = [] ∧ behindWord rest = rest.tail := by
    cases rest with
    | nil => exact ⟨rfl, rfl⟩
    | cons b rest =>
      have hb := hrest b rfl
      exact ⟨List.takeWhile_cons_of_neg (by simp [hb]), behindWord_cons_space hb rest⟩
  unfold Token.suffix
  split
  · have h116 : isSpace 116 = false := rfl
    rw [List.singleton_append, behindWord_cons_word h116, wordOf, List.takeWhile_cons_of_pos (by rw [h116]; rfl)]
    exact ⟨congrArg _ hplain.1, hplain.2⟩
  · exact hplain

theorem flags_suffix (t : Token) :
    t.suffix.foldl (fun flags b => if b = 116 then flags ||| portFlagTagged else flags) 0 =
      if t.tagged then portFlagTagged else 0 := by
  unfold Token.suffix
  cases t.tagged <;> rfl

theorem turn_token {lead : List UInt8} (hlead : ∀ b ∈ lead, isSpace b = true) (t : Token) {rest : List UInt8}
    (hrest : ∀ b ∈ rest.head?, isSpace b = true) :
    entryAt (lead ++ (t.digits ++ (t.suffix ++ rest))) = t.entry ∧
      nextAt (lead ++ (t.digits ++ (t.suffix ++ rest))) = rest.tail := by
  have hends : Ends (t.suffix ++ rest) := by
    unfold Token.suffix Ends
    split
    · rfl
    · cases rest with
      | nil => rfl
      | cons b rest =>
        have hb := hrest b rfl
        rw [List.nil_append, List.head?_cons, Option.any_some]
        by_contra hdigit
        rw [isSpace_of_isDigit (Bool.not_eq_false _ ▸ hdigit)] at hb
        cases hb
  obtain ⟨hword, hbehind⟩ := wordOf_suffix t hrest
  rw [entryAt, nextAt, strtoul_token hlead t hends, hword, hbehind, flags_suffix]
  exact ⟨rfl, rfl⟩

theorem turn_blank {b : UInt8} {lead : List UInt8} (hlead : ∀ c ∈ b :: lead, isSpace c = true) :
    entryAt (b :: lead) = blankEntry ∧ nextAt (b :: lead) = lead := by
  have hb : isSpace b = true := hlead b List.mem_cons_self
  have hnil : (b :: lead).dropWhile isSpace = [] := by
    have h : (b :: lead ++ []).dropWhile isSpace = [] := dropWhile_blanks hlead
    rwa [List.append_nil] at h
  have hnum : ¬StartsNumber ((b :: lead).dropWhile isSpace) := by
    rw [hnil]
    exact not_startsNumber_nil
  have hstrtoul : strtoul (b :: lead) = (0, b :: lead) := if_neg hnum
  have hword : wordOf (b :: lead) = [] := List.takeWhile_cons_of_neg (by simp [hb])
  refine ⟨?_, ?_⟩
  · rw [entryAt, hstrtoul, hword]
    rfl
  · rw [nextAt, hstrtoul, behindWord_cons_space hb]

theorem allEntries_blanks {lead : List UInt8} (hlead : ∀ b ∈ lead, isSpace b = true) :
    allEntries lead = List.replicate lead.length blankEntry := by
  induction lead with
  | nil => rfl
  | cons b lead ih =>
    obtain ⟨hentry, hnext⟩ := turn_blank hlead
    rw [allEntries_cons (List.cons_ne_nil _ _), hentry, hnext, ih fun c hc => hlead c (List.mem_cons_of_mem _ hc)]
    rfl

/-- The entries of a list: those of its tokens, and one of zeroes for every stray blank. -/
theorem allEntries_items {lead : List UInt8} {items : List (Token × List UInt8)}
    (hlead : ∀ b ∈ lead, isSpace b = true) (hblank : ∀ i ∈ items, ∀ b ∈ i.2, isSpace b = true)
    (hseparated : Separated items) :
    allEntries (lead ++ itemsText Token.bytes items) =
      (items.map fun i => i.1.entry) ++ List.replicate (strayBlanks lead.length items) blankEntry := by
  induction items generalizing lead with
  | nil =>
    rw [itemsText_nil, List.append_nil, allEntries_blanks hlead]
    rfl
  | cons i items ih =>
    have hi := hblank i List.mem_cons_self
    obtain ⟨hentry, hnext⟩ := turn_token hlead i.1 (hseparated.head?_rest Token.bytes hi)
    have hne : lead ++ (i.1.digits ++ (i.1.suffix ++ (i.2 ++ itemsText Token.bytes items))) ≠ [] := by
      intro hnil
      exact i.1.digits_ne_nil (List.append_eq_nil_iff.mp (List.append_eq_nil_iff.mp hnil).2).1
    rw [itemsText_cons, Token.bytes, List.append_assoc, allEntries_cons hne, hentry, hnext,
      hseparated.tail_rest Token.bytes, ih (fun b hb => hi b (List.mem_of_mem_tail hb))
        (fun j hj => hblank j (List.mem_cons_of_mem _ hj)) hseparated.tail, List.length_tail]
    rfl

theorem allEntries_text (text : PortText) :
    allEntries (text.text Token.bytes) = (text.items.map fun i => i.1.entry) ++ List.replicate (stray text) blankEntry :=
  allEntries_items text.lead_blank text.blank text.separated

/-! ## What the kernel is sent -/

/-- The list has the ports of the tokens, in their order. -/
def SentExactly (items : List (Token × List UInt8)) (sent : List SwitchPort) : Prop :=
  sent.map (fun p => (p.id.toNat, p.tagged)) = items.map fun i => (i.1.number, i.1.tagged)

theorem sendAttrPorts_getD (ports : List Port) : (sendAttrPorts ports).getD [] = ports.map Port.sent := by
  unfold sendAttrPorts
  split
  · rename_i h
    rw [h]
    rfl
  · rfl

theorem Token.entry_sent (t : Token) : t.entry.sent = ⟨BitVec.ofNat 32 t.stored, t.tagged⟩ := by
  have hflag : ∀ tagged : Bool, decide ((if tagged then portFlagTagged else 0) &&& portFlagTagged ≠ 0) = tagged := by
    decide
  rw [Token.entry, Port.sent, hflag]

theorem Token.stored_eq_iff (t : Token) : (BitVec.ofNat 32 t.stored).toNat = t.number ↔ t.number < 2 ^ 32 := by
  rw [BitVec.toNat_ofNat, Token.stored]
  split <;> omega

theorem sentExactly_iff (text : PortText) :
    SentExactly text.items ((allEntries (text.text Token.bytes)).map Port.sent) ↔
      stray text = 0 ∧ ∀ i ∈ text.items, i.1.number < 2 ^ 32 := by
  have htokens : ((text.items.map fun i => i.1.entry).map Port.sent).map (fun p => (p.id.toNat, p.tagged)) =
      text.items.map fun i => ((BitVec.ofNat 32 i.1.stored).toNat, i.1.tagged) := by
    rw [List.map_map, List.map_map]
    exact List.map_congr_left fun i _ => by simp only [Function.comp_apply, Token.entry_sent]
  rw [SentExactly, allEntries_text, List.map_append, List.map_append, htokens]
  constructor
  · intro h
    have hstray : stray text = 0 := by
      have hlen := congrArg List.length h
      simp only [List.length_append, List.length_map, List.length_replicate] at hlen
      omega
    refine ⟨hstray, fun i hi => ?_⟩
    rw [hstray, List.replicate_zero, List.map_nil, List.map_nil, List.append_nil] at h
    exact i.1.stored_eq_iff.mp (congrArg Prod.fst (List.map_inj_left.mp h i hi))
  · rintro ⟨hstray, hsmall⟩
    rw [hstray, List.replicate_zero, List.map_nil, List.map_nil, List.append_nil]
    exact List.map_congr_left fun i hi => by rw [i.1.stored_eq_iff.mpr (hsmall i hi)]

/-- A list of ports is sent as it says if and only if at most one blank ends it, its numbers fit into 32 bits and
the switch has as many ports; and the entries of any string are stored in the array if and only if it has room
for the words of the string and for its stray blanks. -/
theorem port_string_sent_iff (ports : ℕ) :
    (∀ text : PortText, (∃ sent, portsSent ports (text.text Token.bytes) = some sent ∧ SentExactly text.items sent) ↔
        stray text = 0 ∧ (∀ i ∈ text.items, i.1.number < 2 ^ 32) ∧ text.items.length ≤ ports) ∧
      ∀ str : CStr, portArray ports str.bytes ≠ none ↔ entryCount true str.bytes ≤ ports := by
  constructor
  · intro text
    rw [portsSent, portArray_eq]
    have hcount : (allEntries (text.text Token.bytes)).length = text.items.length + stray text := by
      rw [allEntries_text, List.length_append, List.length_map, List.length_replicate]
    constructor
    · rintro ⟨sent, hsent, hexact⟩
      split at hsent
      · rename_i hroom
        rw [Option.map_some, sendAttrPorts_getD, Option.some.injEq] at hsent
        obtain ⟨hstray, hsmall⟩ := (sentExactly_iff text).mp (hsent ▸ hexact)
        exact ⟨hstray, hsmall, by omega⟩
      · cases hsent
    · rintro ⟨hstray, hsmall, hroom⟩
      rw [if_pos (by omega)]
      exact ⟨_, by rw [Option.map_some, sendAttrPorts_getD], (sentExactly_iff text).mpr ⟨hstray, hsmall⟩⟩
  · intro str
    rw [portArray_eq, allEntries_length]
    split
    · rename_i h
      exact iff_of_true (Option.some_ne_none _) h
    · rename_i h
      exact iff_of_false (not_not_intro rfl) h

def tokenOne : Token where
  digits := [49]
  digits_ne_nil := List.cons_ne_nil _ _
  isDigits := by decide
  tagged := false

/-- `1` and two blanks. -/
def twoBlanks : PortText where
  lead := []
  items := [(tokenOne, [32, 32])]
  lead_blank := by decide
  blank := by
    rw [List.forall_mem_singleton]
    decide
  separated := fun i hi => by cases hi

/-- Port 0 is sent along with port 1, and one entry for two ports overruns an array of one. -/
theorem port_string_extra_port :
    portsSent 8 (twoBlanks.text Token.bytes) = some [⟨1, false⟩, ⟨0, false⟩] ∧
      ¬(∃ sent, portsSent 8 (twoBlanks.text Token.bytes) = some sent ∧ SentExactly twoBlanks.items sent) ∧
      portArray 1 (CStr.lit "1 2").bytes = none := by
  have hsent : portsSent 8 (twoBlanks.text Token.bytes) = some [⟨1, false⟩, ⟨0, false⟩] := by decide
  refine ⟨hsent, ?_, by decide⟩
  rintro ⟨sent, hsome, hexact⟩
  rw [hsent, Option.some.injEq] at hsome
  rw [← hsome] at hexact
  exact absurd (congrArg List.length hexact) (by decide)

end Neufbox.Swlib
