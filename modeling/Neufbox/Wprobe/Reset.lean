import Neufbox.Wprobe.Snapshots
import Neufbox.Wprobe.Statistics

/-! # A reset of the statistics

`wprobe_request_data` asks for a reset with a flag in the request. The query hands the flags of the spin lock to
`wprobe_scale_stats` instead, and a reset would divide by the count only where the count is above itself: whatever was
sampled before stays in the sums. -/
namespace Neufbox.Wprobe
open WrapArith
set_option autoImplicit false
set_option maxHeartbeats 250000
set_option maxRecDepth 120000

/-! ## Requests and samples -/

/-- The request of `wprobe_request_data`. -/
def wprobeRequestData (ifname : List UInt8) (addr : Option (List UInt8)) (scale : ℤ) : Request where
  cmd := .getInfo
  interface := some ifname
  mac := addr
  flags := if scale < 0 then some wprobeFReset else none
  scale := if 0 < scale then some scale.toNat else none

/-- A driver that stores a sample of the item `i`, or has none. -/
def syncSample (item : WprobeItem) (i : ℕ) : Option (ℕ × ℕ) → SyncCall
  | none => ⟨false, fun val => val⟩
  | some smp => ⟨false, fun val => Function.update val i (wprobeSet item item.type smp.1 smp.2 (val i))⟩

/-- Samples that are measured one by one. -/
def measureAll (mach : Machine) (mac : Option (List UInt8)) (item : WprobeItem) (i : ℕ) (dev : WprobeIface)
    (samples : List (ℕ × ℕ)) : WprobeIface :=
  samples.foldl (fun dev smp => wprobeMeasure mach dev mac (syncSample item i (some smp))) dev

/-- The interface behind the first batch of a query, and what that sends. -/
def answer (mach : Machine) (call : Batch) (dev : WprobeIface) (nlh : Request) : WprobeIface × List Message :=
  match wprobeDumpInfo mach call dev nlh {} with
  | .ok r => (r.opened.dev, r.sent)
  | .error _ => (dev, [])

def statsOf (v : WprobeValue) : Statistics := ⟨v.s, v.ss, v.n⟩

/-- The statistics that the messages give for an item. -/
def reported (i : ℕ) (msgs : List Message) : List Statistics :=
  msgs.filterMap fun
    | .value msg => if msg.id = i then msg.stats else none
    | .info _ => none

/-! ## What samples add up to -/

section Sums
variable (mach : Machine) (item : WprobeItem)

def sampleInt (smp : ℕ × ℕ) : ℤ := (sampleOf mach { raw := smp.2 } item.type).getD 0

def addSample (st : Statistics) (smp : ℕ × ℕ) : Statistics :=
  ⟨asS64 (st.s + sampleInt mach item smp),
    asS64 (st.ss + asS64 (sampleInt mach item smp * sampleInt mach item smp)), (st.n + 1) % 2 ^ 32⟩

/-- Sum, sum of squares and number of some samples, in the registers. -/
def total (samples : List (ℕ × ℕ)) : Statistics :=
  ⟨asS64 (samples.map (sampleInt mach item)).sum,
    asS64 (samples.map fun smp => sampleInt mach item smp * sampleInt mach item smp).sum, samples.length % 2 ^ 32⟩

theorem addSample_total (samples : List (ℕ × ℕ)) (smp : ℕ × ℕ) :
    addSample mach item (total mach item samples) smp = total mach item (samples ++ [smp]) := by
  simp only [addSample, total, asS64, List.map_append, List.sum_append, List.map_singleton, List.sum_singleton,
    Int.bmod_add_bmod, Int.add_bmod_bmod, Nat.mod_add_mod, List.length_append, List.length_singleton]

theorem foldl_addSample (before samples : List (ℕ × ℕ)) :
    samples.foldl (addSample mach item) (total mach item before) = total mach item (before ++ samples) := by
  induction samples generalizing before with
  | nil => rw [List.foldl_nil, List.append_nil]
  | cons smp samples ih => rw [List.foldl_cons, addSample_total, ih, List.append_assoc, List.singleton_append]

/-- What is added to both does not make different sums equal. -/
theorem total_append_inj (a b more : List (ℕ × ℕ)) :
    total mach item (a ++ more) = total mach item (b ++ more) ↔ total mach item a = total mach item b := by
  have hcount : (a.length + more.length) % 2 ^ 32 = (b.length + more.length) % 2 ^ 32 ↔
      a.length % 2 ^ 32 = b.length % 2 ^ 32 :=
    ⟨Nat.ModEq.add_right_cancel' more.length, Nat.ModEq.add_right more.length⟩
  simp only [total, asS64, List.map_append, List.sum_append, List.length_append, Statistics.mk.injEq,
    Int.bmod_add_cancel_right, hcount]

end Sums

/-! ## The values of a link -/

/-- The values that a request for the link, or for the globals, is about. -/
def lookup (dev : WprobeIface) (mac : Option (List UInt8)) : Option (Option ℕ) :=
  match mac with
  | none => some none
  | some addr => (wprobeFindLink dev addr).map fun link => some link.ptr

section Link
variable {dev : WprobeIface} {mac : Option (List UInt8)} {l : Option ℕ}

theorem lookup_setValues (dev : WprobeIface) (mac : Option (List UInt8)) (l : Option ℕ) (val : Values) :
    lookup (dev.setValues l val) mac = lookup dev mac := by
  cases mac with
  | none => rfl
  | some addr =>
    cases l with
    | none => rfl
    | some p =>
      have hsame : ∀ link : WprobeLink, (if link.ptr = p then { link with val := val } else link).addr = link.addr ∧
          (if link.ptr = p then { link with val := val } else link).ptr = link.ptr := by
        intro link
        split <;> exact ⟨rfl, rfl⟩
      simp only [lookup, wprobeFindLink, WprobeIface.setValues, List.find?_map, Option.map_map, Function.comp_def, hsame]

theorem lookup_listed (h : lookup dev mac = some l) : dev.Listed l := by
  rintro p rfl
  cases mac with
  | none => cases h
  | some addr =>
    obtain ⟨link, hlink, hptr⟩ := Option.map_eq_some_iff.mp h
    exact ⟨link, List.mem_of_find?_eq_some hlink, by simpa using hptr⟩

end Link

/-! ## One item along the steps -/

/-- The request leads to the values `l` of the interface, and `st` are the statistics of item `i` there. -/
structure Watched (name : List UInt8) (items : List WprobeItem) (mac : Option (List UInt8)) (l : Option ℕ) (i : ℕ)
    (dev : WprobeIface) (st : Statistics) : Prop where
  name : dev.name = name
  items : dev.items l.isSome = items
  found : lookup dev mac = some l
  idle : (dev.valuesOf l i).pending = false
  stats : statsOf (dev.valuesOf l i) = st

section Watched
variable {name : List UInt8} {items : List WprobeItem} {mac : Option (List UInt8)} {l : Option ℕ} {i : ℕ}
  {dev : WprobeIface} {st : Statistics} (mach : Machine) {item : WprobeItem} (hitem : items[i]? = some item)
  (hstats : carriesStats item.type = true)

def addOptional (mach : Machine) (item : WprobeItem) (st : Statistics) (o : Option (ℕ × ℕ)) : Statistics :=
  o.toList.foldl (addSample mach item) st

theorem sampleOf_raw (v : WprobeValue) (type : ValueType) (h : carriesStats type = true) :
    sampleOf mach v type = some ((sampleOf mach { raw := v.raw } type).getD 0) := by
  have hraw : sampleOf mach v type = sampleOf mach { raw := v.raw } type := by
    cases type <;> rfl
  have hsome : (sampleOf mach { raw := v.raw } type).isSome = true := by
    cases type with
    | string => cases h
    | other attr => cases h
    | _ => rfl
  obtain ⟨x, hx⟩ := Option.isSome_iff_exists.mp hsome
  rw [hraw, hx, Option.getD_some]

include hstats in
/-- A sample that the driver stores is folded in at once. -/
theorem updateValue_sample (smp : ℕ × ℕ) (v : WprobeValue) :
    (updateValue mach item.type (wprobeSet item item.type smp.1 smp.2 v)).pending = false ∧
      statsOf (updateValue mach item.type (wprobeSet item item.type smp.1 smp.2 v)) =
        addSample mach item (statsOf v) smp := by
  rw [wprobeSet_eq, updateValue, if_pos rfl]
  dsimp only
  rw [sampleOf_raw mach _ _ hstats]
  exact ⟨rfl, rfl⟩

include hitem hstats in
theorem updateStats_sample (o : Option (ℕ × ℕ)) {val : Values} (hidle : (val i).pending = false) :
    (wprobeUpdateStats mach items ((syncSample item i o).fill val) i).pending = false ∧
      statsOf (wprobeUpdateStats mach items ((syncSample item i o).fill val) i) =
        addOptional mach item (statsOf (val i)) o := by
  simp only [wprobeUpdateStats, hitem]
  cases o with
  | none =>
    rw [syncSample, updateValue, if_neg (by rw [hidle]; simp)]
    exact ⟨hidle, rfl⟩
  | some smp =>
    simp only [syncSample, Function.update_self]
    exact updateValue_sample mach hstats smp (val i)

theorem setValues_name (dev : WprobeIface) (l : Option ℕ) (val : Values) : (dev.setValues l val).name = dev.name := by
  cases l <;> rfl

include hitem hstats in
theorem Watched.sync (h : Watched name items mac l i dev st) (o : Option (ℕ × ℕ)) (query : Bool) :
    Watched name items mac l i (wprobeSyncData mach (syncSample item i o) dev l query) (addOptional mach item st o) := by
  have herr : (syncSample item i o).err = false := by
    cases o <;> rfl
  obtain ⟨hpending, hsums⟩ := updateStats_sample mach hitem hstats o h.idle
  have hvalues : (wprobeSyncData mach (syncSample item i o) dev l query).valuesOf l =
      wprobeUpdateStats mach items ((syncSample item i o).fill (dev.valuesOf l)) := by
    rw [wprobeSyncData, herr, if_neg (by simp), h.items]
    exact valuesOf_setValues (lookup_listed h.found) _
  refine ⟨?_, ?_, ?_, ?_, ?_⟩
  · rw [wprobeSyncData, herr, if_neg (by simp)]
    exact (setValues_name dev l _).trans h.name
  · rw [syncData_items, h.items]
  · rw [wprobeSyncData, herr, if_neg (by simp)]
    exact (lookup_setValues dev mac l _).trans h.found
  · rw [hvalues, hpending]
  · rw [hvalues, hsums, h.stats]

include hitem hstats in
theorem Watched.measure (h : Watched name items mac l i dev st) (smp : ℕ × ℕ) :
    Watched name items mac l i (wprobeMeasure mach dev mac (syncSample item i (some smp)))
      (addSample mach item st smp) := by
  have hsync := h.sync mach hitem hstats (some smp) false
  have hrun : wprobeMeasure mach dev mac (syncSample item i (some smp)) =
      wprobeSyncData mach (syncSample item i (some smp)) dev l false := by
    have hfound := h.found
    cases mac with
    | none =>
      obtain rfl : none = l := Option.some.inj hfound
      rfl
    | some addr =>
      obtain ⟨link, hlink, hptr⟩ := Option.map_eq_some_iff.mp hfound
      rw [wprobeMeasure, hlink, ← hptr]
  rw [hrun]
  exact hsync

include hitem hstats in
theorem Watched.measureAll (h : Watched name items mac l i dev st) (samples : List (ℕ × ℕ)) :
    Watched name items mac l i (measureAll mach mac item i dev samples) (samples.foldl (addSample mach item) st) := by
  induction samples generalizing dev st with
  | nil => exact h
  | cons smp samples ih => exact ih (h.measure mach hitem hstats smp)

/-- A scale of the count itself is none. -/
theorem scaleStats_none (items : List WprobeItem) (irqFlags : ℕ) (val : Values) :
    wprobeScaleStats items irqFlags none val = val := by
  funext j
  unfold wprobeScaleStats
  split
  · split
    · unfold scaleFor scaleValue
      split
      · rw [if_neg (by omega)]
      · rw [if_neg (by simp)]
    · rfl
  · rfl

/-- The first batch of a query for the values. -/
theorem Watched.open (h : Watched name items mac l i dev st) (call : Batch) (scale : ℤ) :
    ∃ args, args.i = 0 ∧ hasFlag args.vflags wprobeFLink = l.isSome ∧
      openDump mach call dev (wprobeRequestData name mac scale) =
        .ok ⟨captureQuery mach call dev l (wprobeRequestData name mac scale).scale, args⟩ := by
  have hname : ¬ (wprobeRequestData name mac scale).interface ≠ some dev.name := by
    rw [h.name]
    exact not_not_intro rfl
  have hflags : hasFlag ((wprobeRequestData name mac scale).flags.getD 0) wprobeFLink = false := by
    simp only [wprobeRequestData]
    split <;> decide +kernel
  have hfound := h.found
  cases mac with
  | none =>
    obtain rfl : none = l := Option.some.inj hfound
    refine ⟨_, rfl, ?_, if_neg hname⟩
    have hlink := requestFlags_link (wprobeRequestData name none scale) 0 fun _ => rfl
    rw [hflags] at hlink
    exact hlink
  | some addr =>
    obtain ⟨link, hlink, rfl⟩ := Option.map_eq_some_iff.mp hfound
    refine ⟨⟨true, some link.ptr, requestFlags (wprobeRequestData name (some addr) scale) link.flags, 0⟩, rfl, ?_, ?_⟩
    · have hlink' := requestFlags_link (wprobeRequestData name (some addr) scale) link.flags fun hnone => by cases hnone
      rw [hflags] at hlink'
      exact hlink'
    · simp [openDump, wprobeRequestData, h.name, hlink]

include hitem hstats in
/-- A query without a scale leaves the sums as they are, with the flag of a reset or without. -/
theorem Watched.query (h : Watched name items mac l i dev st) {scale : ℤ} (hscale : scale ≤ 0) (o : Option (ℕ × ℕ))
    (room irqFlags : ℕ) : Watched name items mac l i
      (answer mach ⟨room, syncSample item i o, irqFlags⟩ dev (wprobeRequestData name mac scale)).1
      (addOptional mach item st o) := by
  obtain ⟨args, -, -, hopen⟩ := h.open mach ⟨room, syncSample item i o, irqFlags⟩ scale
  have hnone : (wprobeRequestData name mac scale).scale = none := if_neg (by omega)
  have hsync := h.sync mach hitem hstats o true
  have hanswer : (answer mach ⟨room, syncSample item i o, irqFlags⟩ dev (wprobeRequestData name mac scale)).1 =
      captureQuery mach ⟨room, syncSample item i o, irqFlags⟩ dev l none := by
    rw [answer, wprobeDumpInfo, if_neg (by simp), hopen, hnone]
    rfl
  rw [hanswer, captureQuery]
  dsimp only
  rw [scaleStats_none]
  generalize wprobeSyncData mach (syncSample item i o) dev l true = dev' at hsync ⊢
  have hvalues : ∀ q, ({ dev' with queryVal := q }.setValues l (dev'.valuesOf l)).valuesOf l = dev'.valuesOf l :=
    fun q => valuesOf_setValues (lookup_listed (show lookup { dev' with queryVal := q } mac = some l from hsync.found)) _
  refine ⟨?_, ?_, ?_, ?_, ?_⟩
  · exact (setValues_name _ l _).trans hsync.name
  · rw [setValues_items]
    exact hsync.items
  · exact (lookup_setValues _ mac l _).trans hsync.found
  · exact (congrArg (fun val : Values => (val i).pending) (hvalues _)).trans hsync.idle
  · exact (congrArg (fun val : Values => statsOf (val i)) (hvalues _)).trans hsync.stats

theorem filterMap_zipIdx {α β : Type} (f : α → ℕ → Option β) (xs : List α) (k i : ℕ) :
    ((xs.zipIdx k).filterMap fun p => if p.2 = i then f p.1 p.2 else none) =
      if k ≤ i then (xs[i - k]?.bind fun x => f x i).toList else [] := by
  induction xs generalizing k with
  | nil => simp
  | cons x xs ih =>
    rw [List.zipIdx_cons, List.filterMap_cons, ih]
    by_cases hki : k = i
    · rw [if_pos hki, if_neg (by omega), if_pos (by omega), hki, Nat.sub_self, List.getElem?_cons_zero, Option.bind_some]
      cases f x i <;> rfl
    · rw [if_neg hki]
      by_cases hle : k ≤ i
      · obtain ⟨d, hd⟩ : ∃ d, i - k = d + 1 := ⟨i - k - 1, by omega⟩
        rw [if_pos hle, if_pos (by omega), hd, List.getElem?_cons_succ, show i - (k + 1) = d by omega]
      · rw [if_neg hle, if_neg (by omega)]

include hitem hstats in
/-- A query reports the sums that it found. -/
theorem Watched.reported (h : Watched name items mac l i dev st) (hkeep : hasFlag item.flags wprobeFKeepstat = true)
    (scale : ℤ) (o : Option (ℕ × ℕ)) {room : ℕ} (hroom : i < room) (irqFlags : ℕ) :
    reported i (answer mach ⟨room, syncSample item i o, irqFlags⟩ dev (wprobeRequestData name mac scale)).2 =
      [addOptional mach item st o] := by
  obtain ⟨args, hzero, hlink, hopen⟩ := h.open mach ⟨room, syncSample item i o, irqFlags⟩ scale
  have hsync := h.sync mach hitem hstats o true
  have hlt : i < items.length := (List.getElem?_eq_some_iff.mp hitem).1
  generalize hcap : captureQuery mach ⟨room, syncSample item i o, irqFlags⟩ dev l
    (wprobeRequestData name mac scale).scale = cap at hopen
  have hitems : cap.items l.isSome = items := by rw [← hcap, captureQuery_items, h.items]
  have hlisted := lookup_listed h.found
  have hquery : statsOf (cap.queryVal i) = addOptional mach item st o := by
    rw [← hcap, captureQuery_queryVal mach _ dev l _ hlisted, if_pos (by rw [h.items]; exact hlt),
      ← syncData_valuesOf mach _ hlisted true]
    exact hsync.stats
  have hsent : (answer mach ⟨room, syncSample item i o, irqFlags⟩ dev (wprobeRequestData name mac scale)).2 =
      ((items.take room).zipIdx 0).map fun p =>
        .value (wprobeSendItemValue mach p.1 (cap.queryVal p.2) p.2 args.vflags) := by
    rw [answer, wprobeDumpInfo, if_neg (by simp), hopen]
    dsimp only [Except.map, sendBatch]
    rw [hlink, hitems, hzero]
    rfl
  have hpick := filterMap_zipIdx (fun item j => (wprobeSendItemValue mach item (cap.queryVal j) j args.vflags).stats)
    (items.take room) 0 i
  rw [hsent, Wprobe.reported, List.filterMap_map]
  refine hpick.trans ?_
  rw [if_pos (Nat.zero_le i), Nat.sub_zero, List.getElem?_take_of_lt hroom, hitem, Option.bind_some]
  show (if carriesStats item.type && hasFlag item.flags wprobeFKeepstat then some (statsOf (cap.queryVal i))
    else none).toList = _
  rw [if_pos (by rw [hstats, hkeep]; rfl), hquery]
  rfl

end Watched

/-! ## Two histories -/

/-- The statistics that a query reports behind a history, a query with the flag of a reset, and more samples. -/
def reportAfterReset (mach : Machine) (dev : WprobeIface) (mac : Option (List UInt8)) (item : WprobeItem) (i : ℕ)
    (history : List (ℕ × ℕ)) (resetCall : Batch) (more : List (ℕ × ℕ)) (nextCall : Batch) (scale : ℤ) :
    List Statistics :=
  let dev₁ := measureAll mach mac item i dev history
  let dev₂ := (answer mach resetCall dev₁ (wprobeRequestData dev.name mac (-1))).1
  let dev₃ := measureAll mach mac item i dev₂ more
  reported i (answer mach nextCall dev₃ (wprobeRequestData dev.name mac scale)).2

theorem addOptional_total (mach : Machine) (item : WprobeItem) (samples : List (ℕ × ℕ)) (o : Option (ℕ × ℕ)) :
    addOptional mach item (total mach item samples) o = total mach item (samples ++ o.toList) :=
  foldl_addSample mach item samples o.toList

section Histories
variable (mach : Machine) (dev : WprobeIface) (mac : Option (List UInt8)) (l : Option ℕ) (i : ℕ) (item : WprobeItem)

/-- The sums of all samples, also of those before the reset. -/
theorem reportAfterReset_eq (hfound : lookup dev mac = some l) (hitem : (dev.items l.isSome)[i]? = some item)
    (hkeep : hasFlag item.flags wprobeFKeepstat = true) (hstats : carriesStats item.type = true)
    (hfresh : dev.valuesOf l i = {}) (history more : List (ℕ × ℕ)) (o o' : Option (ℕ × ℕ)) {room' : ℕ}
    (hroom : i < room') (room irqFlags irqFlags' : ℕ) (scale : ℤ) :
    reportAfterReset mach dev mac item i history ⟨room, syncSample item i o, irqFlags⟩ more
        ⟨room', syncSample item i o', irqFlags'⟩ scale =
      [total mach item (history ++ o.toList ++ (more ++ o'.toList))] := by
  have hstart : Watched dev.name (dev.items l.isSome) mac l i dev (total mach item []) :=
    ⟨rfl, rfl, hfound, by rw [hfresh], by rw [hfresh]; rfl⟩
  have hhistory := hstart.measureAll mach hitem hstats history
  rw [foldl_addSample, List.nil_append] at hhistory
  have hreset := hhistory.query mach hitem hstats (show (-1 : ℤ) ≤ 0 by norm_num) o room irqFlags
  rw [addOptional_total] at hreset
  have hmore := hreset.measureAll mach hitem hstats more
  rw [foldl_addSample] at hmore
  have hreport := hmore.reported mach hitem hstats hkeep scale o' hroom irqFlags'
  rw [addOptional_total, List.append_assoc] at hreport
  exact hreport

/-- Behind a reset two histories are told apart, exactly if their sums were different. -/
theorem wprobe_reset_iff (hfound : lookup dev mac = some l) (hitem : (dev.items l.isSome)[i]? = some item)
    (hkeep : hasFlag item.flags wprobeFKeepstat = true) (hstats : carriesStats item.type = true)
    (hfresh : dev.valuesOf l i = {}) (history₁ history₂ more : List (ℕ × ℕ)) (o₁ o₂ o : Option (ℕ × ℕ)) (room : ℕ)
    (hroom : i < room) (room₁ room₂ irqFlags₁ irqFlags₂ irqFlags irqFlags' : ℕ) (scale : ℤ) :
    reportAfterReset mach dev mac item i history₁ ⟨room₁, syncSample item i o₁, irqFlags₁⟩ more
          ⟨room, syncSample item i o, irqFlags⟩ scale =
        reportAfterReset mach dev mac item i history₂ ⟨room₂, syncSample item i o₂, irqFlags₂⟩ more
          ⟨room, syncSample item i o, irqFlags'⟩ scale ↔
      total mach item (history₁ ++ o₁.toList) = total mach item (history₂ ++ o₂.toList) := by
  rw [reportAfterReset_eq mach dev mac l i item hfound hitem hkeep hstats hfresh _ _ _ _ hroom,
    reportAfterReset_eq mach dev mac l i item hfound hitem hkeep hstats hfresh _ _ _ _ hroom, List.singleton_inj]
  exact total_append_inj mach item _ _ _

end Histories

/-- An interface with one item. -/
def unitIface : WprobeIface := ⟨[], none, [], [unitItem], [], fun _ => {}, fun _ => {}⟩

theorem wprobe_reset_iff_globals :
    reportAfterReset littleMachine unitIface none unitItem 0 [] ⟨1, syncSample unitItem 0 none, 0⟩ [(2, 5)]
          ⟨1, syncSample unitItem 0 none, 0⟩ 0 =
        reportAfterReset littleMachine unitIface none unitItem 0 [(1, 7)] ⟨1, syncSample unitItem 0 none, 0⟩ [(2, 5)]
          ⟨1, syncSample unitItem 0 none, 0⟩ 0 ↔
      total littleMachine unitItem [] = total littleMachine unitItem [(1, 7)] :=
  wprobe_reset_iff littleMachine unitIface none none 0 unitItem rfl rfl (by decide) rfl rfl [] [(1, 7)] [(2, 5)] none none
    none 1 (by decide) 1 1 0 0 0 0 0

/-- Without a sample before the reset, and with one. -/
theorem wprobe_reset_keeps :
    reportAfterReset littleMachine unitIface none unitItem 0 [] ⟨1, syncSample unitItem 0 none, 0⟩ [(2, 5)]
          ⟨1, syncSample unitItem 0 none, 0⟩ 0 = [⟨5, 25, 1⟩] ∧
      reportAfterReset littleMachine unitIface none unitItem 0 [(1, 7)] ⟨1, syncSample unitItem 0 none, 0⟩ [(2, 5)]
          ⟨1, syncSample unitItem 0 none, 0⟩ 0 = [⟨12, 74, 2⟩] := by
  decide +kernel

end Neufbox.Wprobe
