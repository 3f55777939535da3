import Neufbox.Library.Decimal

/-! # Address ranges in `ipcalc.sh`

The script computes a subnet and a range of addresses in it with awk, whose numbers are converted to 32-bit words by each
bit operation. `end` is the address behind the range, and it is clamped as if it were the last one in it. -/
namespace Neufbox.BaseFiles
open Neufbox.Decimal
set_option autoImplicit false
set_option maxHeartbeats 250000
set_option maxRecDepth 120000

abbrev Text := List UInt8

/-! ## awk -/

/-- A number as an operand of a bit operation. -/
def word (x : ℤ) : ℕ := (x % 2 ^ 32).toNat

def awkAnd (x y : ℤ) : ℤ := (word x &&& word y : ℕ)

def awkOr (x y : ℤ) : ℤ := (word x ||| word y : ℕ)

def compl (x : ℤ) : ℤ := (word x ^^^ (2 ^ 32 - 1) : ℕ)

def lshift (x : ℤ) (n : ℕ) : ℤ := (word x <<< n % 2 ^ 32 : ℕ)

def rshift (x : ℤ) (n : ℕ) : ℤ := (word x >>> n : ℕ)

/-- The value of a text as a number; fractions and exponents are left out. -/
def number (text : Text) : ℤ :=
  match text.dropWhile isSpace with
  | 45 :: rest => -digitsValue (rest.takeWhile isDigit)
  | 43 :: rest => digitsValue (rest.takeWhile isDigit)
  | rest => digitsValue (rest.takeWhile isDigit)

/-- An integer as a text. -/
def shown (x : ℤ) : Text := if x < 0 then 45 :: decimal x.natAbs else decimal x.natAbs

/-- `split(text, a, ".")`: an empty text has no parts. -/
def split (text : Text) : List Text := if text = [] then [] else text.splitOn 46

def literal (s : String) : Text := s.toList.map fun c => UInt8.ofNat c.toNat

/-! ## `common.awk` -/

def bitcount (c : ℤ) : ℤ :=
  let c := awkAnd (rshift c 1) 0x55555555 + awkAnd c 0x55555555
  let c := awkAnd (rshift c 2) 0x33333333 + awkAnd c 0x33333333
  let c := awkAnd (rshift c 4) 0x0f0f0f0f + awkAnd c 0x0f0f0f0f
  let c := awkAnd (rshift c 8) 0x00ff00ff + awkAnd c 0x00ff00ff
  awkAnd (rshift c 16) 0x0000ffff + awkAnd c 0x0000ffff

def ip2int (ip : Text) : ℤ := (split ip).foldl (fun ret a => awkOr (lshift ret 8) (number a)) 0

/-- The loop of `int2ip`, with the rounds that are left. -/
def int2ipLoop : ℕ → Text → ℤ → Text
  | 0, ret, _ => ret
  | x + 1, ret, ip => int2ipLoop x (shown (awkAnd ip 255) ++ literal "." ++ ret) (rshift ip 8)

def int2ip (ip : ℤ) : Text := int2ipLoop 3 (shown (awkAnd ip 255)) (rshift ip 8)

/-! ## `ipcalc.sh` -/

/-- `ARGV[i]`, which is empty behind the last argument. -/
def argv (args : List Text) (i : ℕ) : Text := args.getD (i - 1) []

/-- The lines that are printed. `ARGV[0]` counts in `ARGC`. -/
def ipcalc (args : List Text) : List Text :=
  let ipaddr := ip2int (argv args 1)
  let netmask := ip2int (argv args 2)
  let network := awkAnd ipaddr netmask
  let broadcast := awkOr network (compl netmask)
  let start := awkOr network (awkAnd (ip2int (argv args 3)) (compl netmask))
  let limit := network + 1
  let start := if start < limit then limit else start
  let «end» := start + number (argv args 4)
  let limit := awkOr network (compl netmask) - 1
  let «end» := if «end» > limit then limit else «end»
  [literal "IP=" ++ int2ip ipaddr, literal "NETMASK=" ++ int2ip netmask, literal "BROADCAST=" ++ int2ip broadcast,
    literal "NETWORK=" ++ int2ip network, literal "PREFIX=" ++ shown (32 - bitcount (compl netmask))] ++
    if args.length + 1 > 3 then [literal "START=" ++ int2ip start, literal "END=" ++ int2ip («end» - 1)] else []

/-! ## Words -/

@[simp] theorem word_natCast {n : ℕ} (hn : n < 2 ^ 32) : word n = n := by
  unfold word
  omega

theorem awkAnd_natCast {m n : ℕ} (hm : m < 2 ^ 32) (hn : n < 2 ^ 32) : awkAnd m n = (m &&& n : ℕ) := by
  rw [awkAnd, word_natCast hm, word_natCast hn]

theorem awkOr_natCast {m n : ℕ} (hm : m < 2 ^ 32) (hn : n < 2 ^ 32) : awkOr m n = (m ||| n : ℕ) := by
  rw [awkOr, word_natCast hm, word_natCast hn]

theorem and_255 {n : ℕ} (hn : n < 2 ^ 32) : awkAnd n 255 = (n % 256 : ℕ) := by
  have h := awkAnd_natCast hn (by norm_num : 255 < 2 ^ 32)
  rw [Nat.and_two_pow_sub_one_eq_mod n 8] at h
  exact h

theorem rshift_8 {n : ℕ} (hn : n < 2 ^ 32) : rshift n 8 = (n / 256 : ℕ) := by
  rw [rshift, word_natCast hn, Nat.shiftRight_eq_div_pow]

theorem lshift_or {n b : ℕ} (hn : n < 2 ^ 24) (hb : b < 256) : awkOr (lshift n 8) b = (n * 256 + b : ℕ) := by
  have hshift : lshift n 8 = (2 ^ 8 * n : ℕ) := by
    rw [lshift, word_natCast (by omega), Nat.shiftLeft_eq, Nat.mod_eq_of_lt (by omega), Nat.mul_comm]
  rw [hshift, awkOr_natCast (by omega) (by omega), ← Nat.two_pow_add_eq_or_of_lt (by omega)]
  congr 1
  omega

theorem shown_natCast (n : ℕ) : shown n = decimal n := by
  rw [shown, if_neg (by omega), Int.natAbs_natCast]

/-! ## Numbers and addresses as texts -/

/-- A text of digits with a value. -/
structure IsNumber (text : Text) (n : ℕ) : Prop where
  ne_nil : text ≠ []
  digits : ∀ b ∈ text, isDigit b = true
  value : digitsValue text = n

theorem isNumber_decimal (n : ℕ) : IsNumber (decimal n) n :=
  ⟨decimal_ne_nil n, fun _ hb => decimal_isDigit hb, digitsValue_decimal n⟩

def octets (n : ℕ) : List ℕ := [n / 2 ^ 24 % 256, n / 2 ^ 16 % 256, n / 2 ^ 8 % 256, n % 256]

/-- A dotted text of an address. -/
structure IsAddress (text : Text) (n : ℕ) : Prop where
  lt : n < 2 ^ 32
  parts : ∃ parts, text = [46].intercalate parts ∧ List.Forall₂ IsNumber parts (octets n)

/-- The canonical text of an address. -/
def dotted (n : ℕ) : Text := [46].intercalate ((octets n).map decimal)

theorem isAddress_dotted {n : ℕ} (hn : n < 2 ^ 32) : IsAddress (dotted n) n := by
  refine ⟨hn, _, rfl, ?_⟩
  rw [List.forall₂_map_left_iff, List.forall₂_same]
  exact fun d _ => isNumber_decimal d

theorem int2ip_natCast {n : ℕ} (hn : n < 2 ^ 32) : int2ip n = dotted n := by
  have h1 : n / 256 < 2 ^ 32 := by omega
  have h2 : n / 256 / 256 < 2 ^ 32 := by omega
  have h3 : n / 256 / 256 / 256 < 2 ^ 32 := by omega
  simp only [int2ip, int2ipLoop, and_255 hn, rshift_8 hn, and_255 h1, rshift_8 h1, and_255 h2, rshift_8 h2, and_255 h3,
    shown_natCast]
  have e2 : n / 256 / 256 = n / 2 ^ 16 := by omega
  have e3 : n / 2 ^ 16 / 256 = n / 2 ^ 24 := by omega
  rw [e2, e3]
  simp [dotted, octets, List.intercalate, List.intersperse, literal]

section Texts
variable {text : Text} {n : ℕ}

theorem IsNumber.number_eq (h : IsNumber text n) : number text = n := by
  have hall : (text ++ []).takeWhile isDigit = text := takeWhile_digits h.digits rfl
  rw [List.append_nil] at hall
  cases text with
  | nil => exact absurd rfl h.ne_nil
  | cons b bs =>
    have hb : isDigit b = true := h.digits b List.mem_cons_self
    have hspace : isSpace b = false := isSpace_of_isDigit hb
    have hminus : b ≠ 45 := fun he => absurd hb (by rw [he]; decide)
    have hplus : b ≠ 43 := fun he => absurd hb (by rw [he]; decide)
    rw [number, List.dropWhile_cons_of_neg (by simp [hspace])]
    split
    · next he => exact absurd (List.cons.inj he).1 hminus
    · next he => exact absurd (List.cons.inj he).1 hplus
    · rw [hall, h.value]

theorem IsNumber.dot_not_mem (h : IsNumber text n) : 46 ∉ text := fun hin => absurd (h.digits 46 hin) (by decide)

/-- Parts with dots between them are found again. -/
theorem split_intercalate {parts : List Text} (hparts : ∀ part ∈ parts, part ≠ [] ∧ 46 ∉ part) (hne : parts ≠ []) :
    split ([46].intercalate parts) = parts := by
  have hsplit : ([46].intercalate parts).splitOn 46 = parts :=
    List.splitOn_intercalate 46 (fun part hpart => (hparts part hpart).2) hne
  rw [split, if_neg, hsplit]
  intro hnil
  rw [hnil, List.splitOn_nil] at hsplit
  exact (hparts [] (by rw [← hsplit]; exact List.mem_singleton_self _)).1 rfl

theorem IsNumber.ip2int_eq (h : IsNumber text n) : ip2int text = (n % 2 ^ 32 : ℕ) := by
  have hsplit : split text = [text] := by
    have hone := split_intercalate (fun part (hpart : part ∈ [text]) => ?_) (List.cons_ne_nil text [])
    · simpa [List.intercalate] using hone
    · rw [List.mem_singleton.mp hpart]
      exact ⟨h.ne_nil, h.dot_not_mem⟩
  have hzero : word (lshift 0 8) = 0 := by decide
  rw [ip2int, hsplit, List.foldl_cons, List.foldl_nil, h.number_eq, awkOr, hzero, Nat.zero_or, word]
  omega

theorem IsAddress.ip2int_eq (h : IsAddress text n) : ip2int text = n := by
  obtain ⟨parts, rfl, hparts⟩ := h.parts
  simp only [octets, List.forall₂_cons_right_iff, List.forall₂_nil_right_iff] at hparts
  obtain ⟨t3, _, h3, ⟨t2, _, h2, ⟨t1, _, h1, ⟨t0, _, h0, rfl, rfl⟩, rfl⟩, rfl⟩, rfl⟩ := hparts
  have hsplit : split ([46].intercalate [t3, t2, t1, t0]) = [t3, t2, t1, t0] := by
    refine split_intercalate (fun part hpart => ?_) (List.cons_ne_nil _ _)
    simp only [List.mem_cons, List.not_mem_nil, or_false] at hpart
    rcases hpart with rfl | rfl | rfl | rfl
    · exact ⟨h3.ne_nil, h3.dot_not_mem⟩
    · exact ⟨h2.ne_nil, h2.dot_not_mem⟩
    · exact ⟨h1.ne_nil, h1.dot_not_mem⟩
    · exact ⟨h0.ne_nil, h0.dot_not_mem⟩
  have hn := h.lt
  have hstart : awkOr (lshift 0 8) ((n / 2 ^ 24 % 256 : ℕ) : ℤ) = (0 * 256 + n / 2 ^ 24 % 256 : ℕ) :=
    lshift_or (n := 0) (by norm_num) (by omega)
  rw [ip2int, hsplit]
  simp only [List.foldl_cons, List.foldl_nil, h3.number_eq, h2.number_eq, h1.number_eq, h0.number_eq]
  rw [hstart, lshift_or (by omega) (by omega), lshift_or (by omega) (by omega), lshift_or (by omega) (by omega)]
  congr 1
  omega

end Texts

/-- Addresses are printed as they were read. -/
theorem int2ip_ip2int_dotted {n : ℕ} (hn : n < 2 ^ 32) : int2ip (ip2int (dotted n)) = dotted n := by
  rw [(isAddress_dotted hn).ip2int_eq, int2ip_natCast hn]

theorem dotted_inj {m n : ℕ} (hm : m < 2 ^ 32) (hn : n < 2 ^ 32) (h : dotted m = dotted n) : m = n := by
  have hint := congrArg ip2int h
  rw [(isAddress_dotted hm).ip2int_eq, (isAddress_dotted hn).ip2int_eq] at hint
  exact_mod_cast hint

/-! ## Subnets -/

section Subnet
variable {p : ℕ}

/-- The number of addresses in a subnet. -/
def size (p : ℕ) : ℕ := 2 ^ (32 - p)

def netmask (p : ℕ) : ℕ := 2 ^ 32 - size p

def network (ip p : ℕ) : ℕ := size p * (ip / size p)

def broadcast (ip p : ℕ) : ℕ := network ip p + (size p - 1)

theorem size_mul (hp : p ≤ 32) : size p * 2 ^ p = 2 ^ 32 := by
  rw [size, ← pow_add]
  congr 1
  omega

theorem size_pos (p : ℕ) : 0 < size p := Nat.two_pow_pos _

theorem four_le_size (hp : p ≤ 30) : 4 ≤ size p := by
  have h : 2 ^ 2 ≤ 2 ^ (32 - p) := Nat.pow_le_pow_right (by norm_num) (by omega)
  exact h

theorem size_le (p : ℕ) : size p ≤ 2 ^ 32 := Nat.pow_le_pow_right (by norm_num) (by omega)

theorem broadcast_lt {ip : ℕ} (hip : ip < 2 ^ 32) (hp : p ≤ 32) : network ip p + size p ≤ 2 ^ 32 := by
  have hdiv : ip / size p < 2 ^ p := by
    rw [Nat.div_lt_iff_lt_mul (size_pos p), Nat.mul_comm, size_mul hp]
    exact hip
  calc network ip p + size p = size p * (ip / size p + 1) := by rw [network]; ring
    _ ≤ size p * 2 ^ p := Nat.mul_le_mul_left _ hdiv
    _ = 2 ^ 32 := size_mul hp

theorem compl_netmask (hp : p ≤ 32) : compl (netmask p) = (size p - 1 : ℕ) := by
  have hlt : netmask p < 2 ^ 32 := Nat.sub_lt (by norm_num) (size_pos p)
  rw [compl, word_natCast hlt, netmask, size]
  congr 1
  have hall : ∀ k < 33, (2 ^ 32 - 2 ^ (32 - k)) ^^^ (2 ^ 32 - 1) = 2 ^ (32 - k) - 1 := by decide
  exact hall p (by omega)

theorem and_netmask {ip : ℕ} (hip : ip < 2 ^ 32) (hp : p ≤ 32) : ip &&& netmask p = network ip p := by
  have hmask : netmask p = size p * (2 ^ p - 1) := by
    rw [netmask, ← size_mul hp, Nat.mul_sub, Nat.mul_one]
  rw [hmask, network, size]
  refine Nat.eq_of_testBit_eq fun i => ?_
  rw [Nat.testBit_and, Nat.testBit_two_pow_mul, Nat.testBit_two_pow_mul, Nat.testBit_two_pow_sub_one,
    Nat.testBit_div_two_pow]
  by_cases hi : 32 - p ≤ i
  · have hsub : i - (32 - p) + (32 - p) = i := by omega
    by_cases hhigh : i < 32
    · have hlow : i - (32 - p) < p := by omega
      simp [hi, hlow, hsub]
    · have hfalse : ip.testBit i = false :=
        Nat.testBit_lt_two_pow (hip.trans_le (Nat.pow_le_pow_right (by norm_num) (by omega)))
      simp [hsub, hfalse]
  · simp [hi]

theorem network_or {ip x : ℕ} (hx : x < size p) : network ip p ||| x = network ip p + x :=
  (Nat.two_pow_add_eq_or_of_lt hx _).symm

theorem bitcount_size (hp : p ≤ 32) : bitcount (size p - 1 : ℕ) = (32 - p : ℕ) := by
  have hall : ∀ k < 33, bitcount (2 ^ (32 - k) - 1 : ℕ) = (32 - k : ℕ) := by decide
  exact hall p (by omega)

end Subnet

/-! ## The range -/

/-- The lines for a subnet and a range in it. -/
def report (ip p first last : ℕ) : List Text :=
  [literal "IP=" ++ dotted ip, literal "NETMASK=" ++ dotted (netmask p), literal "BROADCAST=" ++ dotted (broadcast ip p),
    literal "NETWORK=" ++ dotted (network ip p), literal "PREFIX=" ++ decimal p, literal "START=" ++ dotted first,
    literal "END=" ++ dotted last]

/-- The arguments: an address, the mask of a prefix length, an offset as a number or an address, and a count. -/
structure IsRequest (args : List Text) (ip p offset count : ℕ) : Prop where
  args : ∃ t₁ t₂ t₃ t₄, args = [t₁, t₂, t₃, t₄] ∧ IsAddress t₁ ip ∧ IsAddress t₂ (netmask p) ∧
    (IsNumber t₃ offset ∨ IsAddress t₃ offset) ∧ IsNumber t₄ count
  length_le : p ≤ 30

/-- The first address of the range. -/
def firstHost (ip p offset : ℕ) : ℕ := network ip p + max (offset % size p) 1

theorem ipcalc_report {args : List Text} {ip p offset count : ℕ} (h : IsRequest args ip p offset count) :
    ipcalc args = report ip p (firstHost ip p offset)
      (min (firstHost ip p offset + count) (broadcast ip p - 1) - 1) := by
  obtain ⟨t₁, t₂, t₃, t₄, rfl, h₁, h₂, h₃, h₄⟩ := h.args
  have hp : p ≤ 32 := h.length_le.trans (by norm_num)
  have hsize := four_le_size h.length_le
  have hsize' := size_le p
  have hbroad := broadcast_lt h₁.lt hp
  have hmask : netmask p < 2 ^ 32 := h₂.lt
  have hoffset : ip2int t₃ = (offset % 2 ^ 32 : ℕ) := by
    rcases h₃ with hnum | haddr
    · exact hnum.ip2int_eq
    · rw [haddr.ip2int_eq, Nat.mod_eq_of_lt haddr.lt]
  have hnet : awkAnd ip (netmask p) = network ip p := by
    rw [awkAnd_natCast h₁.lt hmask, and_netmask h₁.lt hp]
  have hbc : awkOr (network ip p) (compl (netmask p)) = broadcast ip p := by
    rw [compl_netmask hp, awkOr_natCast (by omega) (by omega), network_or (by omega), broadcast]
  have hhost : awkAnd (offset % 2 ^ 32 : ℕ) (compl (netmask p)) = (offset % size p : ℕ) := by
    rw [compl_netmask hp, awkAnd_natCast (Nat.mod_lt _ (by norm_num)) (by omega), size,
      Nat.and_two_pow_sub_one_eq_mod, Nat.mod_mod_of_dvd _ (pow_dvd_pow 2 (by omega))]
  have hlt : offset % size p < size p := Nat.mod_lt _ (by omega)
  have hstart : awkOr (network ip p) (offset % size p : ℕ) = (network ip p + offset % size p : ℕ) := by
    rw [awkOr_natCast (by omega) (by omega), network_or hlt]
  have hlength : (32 : ℤ) - (32 - p : ℕ) = p := by omega
  have ha₁ : argv [t₁, t₂, t₃, t₄] 1 = t₁ := rfl
  have ha₂ : argv [t₁, t₂, t₃, t₄] 2 = t₂ := rfl
  have ha₃ : argv [t₁, t₂, t₃, t₄] 3 = t₃ := rfl
  have ha₄ : argv [t₁, t₂, t₃, t₄] 4 = t₄ := rfl
  have hclamp : (if ((network ip p + offset % size p : ℕ) : ℤ) < network ip p + 1 then (network ip p : ℤ) + 1
      else (network ip p + offset % size p : ℕ)) = firstHost ip p offset := by
    rw [firstHost]
    split <;> omega
  have hlast : (if (firstHost ip p offset : ℤ) + count > broadcast ip p - 1 then (broadcast ip p : ℤ) - 1
      else firstHost ip p offset + count) - 1 =
        (min (firstHost ip p offset + count) (broadcast ip p - 1) - 1 : ℕ) := by
    have hfirst : 1 ≤ firstHost ip p offset := by
      rw [firstHost]
      omega
    have hbig : 2 ≤ broadcast ip p := by
      rw [broadcast]
      omega
    split <;> omega
  have hfirst : firstHost ip p offset < 2 ^ 32 := by
    rw [firstHost]
    omega
  have hbroad' : broadcast ip p < 2 ^ 32 := by
    rw [broadcast]
    omega
  simp only [ipcalc, ha₁, ha₂, ha₃, ha₄, h₁.ip2int_eq, h₂.ip2int_eq, hoffset, h₄.number_eq, hnet, hbc, hhost, hstart,
    hclamp, hlast]
  rw [compl_netmask hp, bitcount_size hp, hlength, shown_natCast, int2ip_natCast h₁.lt, int2ip_natCast hmask,
    int2ip_natCast (by omega), int2ip_natCast (by omega), int2ip_natCast hfirst, int2ip_natCast (by omega)]
  rfl

/-- What the script should print for a range. -/
def Ranged (ip p count : ℕ) (lines : List Text) : Prop :=
  ∃ first last, lines = report ip p first last ∧ network ip p + 1 ≤ first ∧ first ≤ last ∧
    last ≤ broadcast ip p - 1 ∧ last - first + 1 = min count (broadcast ip p - first)

theorem report_inj {ip p a b c d : ℕ} (ha : a < 2 ^ 32) (hb : b < 2 ^ 32) (hc : c < 2 ^ 32) (hd : d < 2 ^ 32)
    (h : report ip p a b = report ip p c d) : a = c ∧ b = d := by
  simp only [report, List.cons.injEq, and_true, true_and, List.append_cancel_left_eq] at h
  exact ⟨dotted_inj ha hc h.1, dotted_inj hb hd h.2⟩

/-- The range is right exactly when it ends before the last host of the subnet. -/
theorem ranged_ipcalc_iff {args : List Text} {ip p offset count : ℕ} (h : IsRequest args ip p offset count)
    (hcount : 1 ≤ count) :
    Ranged ip p count (ipcalc args) ↔ max (offset % size p) 1 + count < size p - 1 := by
  obtain ⟨t₁, -, -, -, -, h₁, -⟩ := h.args
  have hsize := four_le_size h.length_le
  have hbroad := broadcast_lt h₁.lt (h.length_le.trans (by norm_num))
  have hlt : offset % size p < size p := Nat.mod_lt _ (by omega)
  rw [ipcalc_report h, Ranged, firstHost, broadcast]
  constructor
  · rintro ⟨first, last, hlines, hnet, hle, hlast, hlength⟩
    obtain ⟨hfirst, hend⟩ := report_inj (by omega) (by omega) (by omega) (by omega) hlines
    omega
  · intro hroom
    refine ⟨_, _, rfl, ?_⟩
    omega

theorem ipcalc_range_iff (args : List Text) (ip p offset count : ℕ) (h : IsRequest args ip p offset count)
    (hcount : 1 ≤ count) :
    (∀ a < 2 ^ 32, int2ip (ip2int (dotted a)) = dotted a) ∧
      (Ranged ip p count (ipcalc args) ↔ max (offset % size p) 1 + count < size p - 1) :=
  ⟨fun _ ha => int2ip_ip2int_dotted ha, ranged_ipcalc_iff h hcount⟩

/-- A range in a class C net, from host 100 on. -/
theorem isRequest_lan (count : ℕ) :
    IsRequest [dotted 0xc0a80101, dotted 0xffffff00, decimal 100, decimal count] 0xc0a80101 24 100 count :=
  ⟨⟨_, _, _, _, rfl, isAddress_dotted (by norm_num), isAddress_dotted (by decide), .inl (isNumber_decimal 100),
    isNumber_decimal count⟩, by norm_num⟩

theorem ipcalc_range_iff_lan :
    Ranged 0xc0a80101 24 150 (ipcalc [dotted 0xc0a80101, dotted 0xffffff00, decimal 100, decimal 150]) :=
  (ipcalc_range_iff _ _ _ _ _ (isRequest_lan 150) (by norm_num)).2.mpr (by decide)

/-- With 200 addresses the range should end at host 254, and it ends at host 253. -/
theorem ipcalc_range_short :
    ¬ Ranged 0xc0a80101 24 200 (ipcalc [dotted 0xc0a80101, dotted 0xffffff00, decimal 100, decimal 200]) := by
  rw [ranged_ipcalc_iff (isRequest_lan 200) (by norm_num)]
  decide

end Neufbox.BaseFiles
