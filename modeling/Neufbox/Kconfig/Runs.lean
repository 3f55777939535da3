import Neufbox.Kconfig.Text

/-! # Runs of kconfig.pl

The arguments are an expression in prefix notation over files. A part of it can be evaluated by a run of its
own, and its output be used as a file: up to `n`, which is printed as not set, this makes no difference for
`+`, `m+` and `-`. `&` and `>` compare values as they are, so there it makes none as long as no file says `n`. -/
namespace Neufbox.Kconfig
open RunAlong
set_option autoImplicit false
set_option maxHeartbeats 250000
set_option maxRecDepth 120000

/-! ## Expressions -/

abbrev Arg := List Char

/-- What `open` gives for a name. -/
abbrev Files := Arg → Option (List Char)

inductive Operator
  | and | add | addMod | diff | sub
  deriving DecidableEq, Repr

/-- The comparisons of `parse_expr`, in their order. -/
def operator (arg : Arg) : Option Operator :=
  if arg = ['&'] then some .and
  else if ['+'] <+: arg then some .add
  else if ['m', '+'] <+: arg then some .addMod
  else if arg = ['>'] then some .diff
  else if arg = ['-'] then some .sub
  else none

def Operator.apply : Operator → Config → Config → Config
  | .and, cfg1, cfg2 => configAnd cfg1 cfg2
  | .add, cfg1, cfg2 => configAdd cfg1 cfg2 false
  | .addMod, cfg1, cfg2 => configAdd cfg1 cfg2 true
  | .diff, cfg1, cfg2 => configDiff cfg1 cfg2
  | .sub, cfg1, cfg2 => configSub cfg1 cfg2

variable (pre : Prefix) (files : Files)

/-- Every call takes an argument, so the number of arguments is enough fuel. -/
def parseExpr : ℕ → List Arg → Option (Config × List Arg)
  | 0, _ => none
  | _ + 1, [] => none
  | fuel + 1, arg :: rest =>
    if ¬Truthy arg then none
    else
      match operator arg with
      | some op =>
        (parseExpr fuel rest).bind fun r1 =>
          (parseExpr fuel r1.2).map fun r2 => (op.apply r1.1 r2.1, r2.2)
      | none => (files arg).map fun text => (loadConfig pre text, rest)

/-- What a run prints; `none` when it dies. -/
def kconfig (args : List Arg) : Option (List Char) :=
  (parseExpr pre files args.length args).bind fun r =>
    if ∃ arg ∈ r.2.head?, Truthy arg then none else some (dumpConfig pre r.1)

/-! ## Syntax trees -/

/-- An argument that stands for an operator. -/
structure Sign where
  arg : Arg
  op : Operator
  isOperator : operator arg = some op

structure FileName where
  arg : Arg
  truthy : Truthy arg
  isFile : operator arg = none

inductive Expr
  | file (name : FileName)
  | op (sign : Sign) (left right : Expr)

def Expr.args : Expr → List Arg
  | .file name => [name.arg]
  | .op sign left right => sign.arg :: (left.args ++ right.args)

def Expr.eval : Expr → Option Config
  | .file name => (files name.arg).map (loadConfig pre)
  | .op sign left right => left.eval.bind fun cfg1 => right.eval.map fun cfg2 => sign.op.apply cfg1 cfg2

theorem Sign.truthy (sign : Sign) : Truthy sign.arg := by
  have h := sign.isOperator
  constructor
  · intro hnil
    rw [hnil] at h
    cases h
  · intro hzero
    rw [hzero] at h
    cases h

theorem parseExpr_args (e : Expr) (rest : List Arg) {fuel : ℕ} (hfuel : e.args.length ≤ fuel) :
    parseExpr pre files fuel (e.args ++ rest) = (e.eval pre files).map fun cfg => (cfg, rest) := by
  induction e generalizing rest fuel with
  | file name =>
    obtain ⟨fuel, rfl⟩ := Nat.exists_eq_add_of_le' hfuel
    show parseExpr pre files (fuel + 1) (name.arg :: rest) = _
    rw [parseExpr, if_neg (not_not_intro name.truthy), name.isFile, Expr.eval, Option.map_map]
    rfl
  | op sign left right ihl ihr =>
    rw [Expr.args, List.length_cons, List.length_append] at hfuel
    obtain ⟨fuel, rfl⟩ := Nat.exists_eq_add_of_le' hfuel
    have hargs : (Expr.op sign left right).args ++ rest = sign.arg :: (left.args ++ (right.args ++ rest)) := by
      rw [Expr.args, List.cons_append, List.append_assoc]
    rw [hargs, ← Nat.add_assoc, parseExpr, if_neg (not_not_intro sign.truthy), sign.isOperator, Expr.eval,
      ihl _ (by omega)]
    cases left.eval pre files with
    | none => rfl
    | some cfg1 =>
      simp only [Option.map_some, Option.bind_some]
      rw [ihr _ (by omega), Option.map_map, Option.map_map]
      rfl

/-- A run on an expression prints its value. -/
theorem kconfig_args (e : Expr) : kconfig pre files e.args = (e.eval pre files).map (dumpConfig pre) := by
  have hparse := parseExpr_args pre files e [] le_rfl
  rw [List.append_nil] at hparse
  have hend : ¬∃ arg ∈ ([] : List Arg).head?, Truthy arg := by
    rintro ⟨arg, harg, -⟩
    cases harg
  rw [kconfig, hparse]
  cases e.eval pre files with
  | none => rfl
  | some cfg =>
    show (if ∃ arg ∈ ([] : List Arg).head?, Truthy arg then none else _) = _
    rw [if_neg hend]
    rfl

/-- There is nothing else that is parsed. -/
theorem parseExpr_sound {fuel : ℕ} {args rest : List Arg} {cfg : Config}
    (h : parseExpr pre files fuel args = some (cfg, rest)) :
    ∃ e : Expr, args = e.args ++ rest ∧ e.eval pre files = some cfg := by
  induction fuel generalizing args rest cfg with
  | zero => cases h
  | succ fuel ih =>
    cases args with
    | nil => cases h
    | cons arg args =>
      rw [parseExpr] at h
      by_cases htruthy : Truthy arg
      · rw [if_neg (not_not_intro htruthy)] at h
        cases hop : operator arg with
        | none =>
          simp only [hop] at h
          obtain ⟨text, htext, heq⟩ := Option.map_eq_some_iff.mp h
          obtain ⟨rfl, rfl⟩ := Prod.mk.inj heq
          exact ⟨.file ⟨arg, htruthy, hop⟩, rfl, by rw [Expr.eval, htext]; rfl⟩
        | some op =>
          simp only [hop] at h
          obtain ⟨r1, hr1, hr⟩ := Option.bind_eq_some_iff.mp h
          obtain ⟨r2, hr2, heq⟩ := Option.map_eq_some_iff.mp hr
          obtain ⟨rfl, rfl⟩ := Prod.mk.inj heq
          obtain ⟨left, hleft, hlval⟩ := ih hr1
          obtain ⟨right, hright, hrval⟩ := ih hr2
          refine ⟨.op ⟨arg, op, hop⟩ left right, ?_, ?_⟩
          · rw [hleft, hright, Expr.args, List.cons_append, List.append_assoc]
          · rw [Expr.eval, hlval, Option.bind_some, hrval]
            rfl
      · rw [if_pos htruthy] at h
        cases h

/-! ## Runs through intermediate files -/

/-- `e'` stands for `e` with parts of it evaluated by runs of their own, whose outputs are the files. -/
inductive Staged : Expr → Expr → Prop
  | file (name : FileName) : Staged (.file name) (.file name)
  | op (sign : Sign) {left left' right right' : Expr} : Staged left left' → Staged right right' →
      Staged (.op sign left right) (.op sign left' right')
  | stage {e e' : Expr} {name : FileName} {out : List Char} : Staged e e' → kconfig pre files e'.args = some out →
      files name.arg = some out → Staged e (.file name)

/-- A condition on the files of an expression. -/
def Expr.All (P : Config → Prop) : Expr → Prop
  | .file name => ∀ text ∈ files name.arg, P (loadConfig pre text)
  | .op _ left right => left.All P ∧ right.All P

/-- No option is `n`. -/
def Literal (cfg : Config) : Prop := ∀ name, cfg.lookup name ≠ some no

/-- Below `&` and `>` no file says `n`. -/
def Expr.Comparable : Expr → Prop
  | .file _ => True
  | .op sign left right => left.Comparable ∧ right.Comparable ∧
      (sign.op = .and ∨ sign.op = .diff → left.All pre files Literal ∧ right.All pre files Literal)

/-- The same up to `n`. -/
def Same (cfg cfg' : Config) : Prop := ∀ name, (cfg.lookup name).map normal = (cfg'.lookup name).map normal

/-! ## Results of operators -/

variable {pre files}

/-- Every operator takes the value of an option from one of its operands. -/
theorem lookup_apply (op : Operator) (cfg1 cfg2 : Config) (name : Name) :
    (op.apply cfg1 cfg2).lookup name = none ∨ (op.apply cfg1 cfg2).lookup name = cfg1.lookup name ∨
      (op.apply cfg1 cfg2).lookup name = cfg2.lookup name := by
  have hadd : ∀ modPlus, (configAdd cfg1 cfg2 modPlus).lookup name = cfg1.lookup name ∨
      (configAdd cfg1 cfg2 modPlus).lookup name = cfg2.lookup name := by
    intro modPlus
    rw [lookup_configAdd]
    split
    · exact Or.inl rfl
    · cases cfg2.lookup name with
      | none => exact Or.inl rfl
      | some val => exact Or.inr rfl
  cases op with
  | and =>
    rw [Operator.apply, lookup_configAnd]
    split
    · exact Or.inr (Or.inl rfl)
    · exact Or.inl rfl
  | add => exact Or.inr (hadd false)
  | addMod => exact Or.inr (hadd true)
  | diff =>
    rw [Operator.apply, lookup_configDiff]
    split
    · exact Or.inl rfl
    · exact Or.inr (Or.inr rfl)
  | sub =>
    rw [Operator.apply, lookup_configSub]
    split
    · exact Or.inr (Or.inl rfl)
    · exact Or.inl rfl

theorem Printable.apply {cfg1 cfg2 : Config} (h1 : Printable cfg1) (h2 : Printable cfg2) (op : Operator) :
    Printable (op.apply cfg1 cfg2) := by
  intro name val hval
  rcases lookup_apply op cfg1 cfg2 name with h | h | h
  · rw [h] at hval
    cases hval
  · rw [h] at hval
    exact h1 name val hval
  · rw [h] at hval
    exact h2 name val hval

theorem Literal.apply {cfg1 cfg2 : Config} (h1 : Literal cfg1) (h2 : Literal cfg2) (op : Operator) :
    Literal (op.apply cfg1 cfg2) := by
  intro name
  rcases lookup_apply op cfg1 cfg2 name with h | h | h
  · rw [h]
    exact (Option.some_ne_none _).symm
  · rw [h]
    exact h1 name
  · rw [h]
    exact h2 name

theorem normal_eq_yes {val : Value} : normal val = yes ↔ val = yes := by
  rw [normal]
  split
  · rename_i h
    rw [h]
    decide
  · rfl

theorem lookup_eq_yes {val : Option Value} : val = some yes ↔ val.map normal = some yes := by
  cases val with
  | none => exact iff_of_false (Option.some_ne_none _).symm (Option.some_ne_none _).symm
  | some val => rw [Option.map_some, Option.some_inj, Option.some_inj, normal_eq_yes]

theorem Same.add {cfg1 cfg1' cfg2 cfg2' : Config} (h1 : Same cfg1 cfg1') (h2 : Same cfg2 cfg2') (modPlus : Bool) :
    Same (configAdd cfg1 cfg2 modPlus) (configAdd cfg1' cfg2' modPlus) := by
  intro name
  have hor : ∀ a b : Option Value, (a.or b).map normal = (a.map normal).or (b.map normal) := by
    intro a b
    cases a <;> rfl
  have hyes : cfg1.lookup name = some yes ↔ cfg1'.lookup name = some yes := by
    rw [lookup_eq_yes, h1 name, ← lookup_eq_yes]
  rw [lookup_configAdd, lookup_configAdd]
  simp only [hyes]
  split
  · exact h1 name
  · rw [hor, hor, h1, h2]

theorem Same.sub {cfg1 cfg1' cfg2 cfg2' : Config} (h1 : Same cfg1 cfg1') (h2 : Same cfg2 cfg2') :
    Same (configSub cfg1 cfg2) (configSub cfg1' cfg2') := by
  intro name
  have hnone : cfg2.lookup name = none ↔ cfg2'.lookup name = none := by
    rw [← Option.map_eq_none_iff, h2 name, Option.map_eq_none_iff]
  rw [lookup_configSub, lookup_configSub]
  simp only [hnone]
  split
  · exact h1 name
  · rfl

theorem lookup_apply_congr (op : Operator) {cfg1 cfg1' cfg2 cfg2' : Config}
    (h1 : ∀ name, cfg1.lookup name = cfg1'.lookup name) (h2 : ∀ name, cfg2.lookup name = cfg2'.lookup name)
    (name : Name) : (op.apply cfg1 cfg2).lookup name = (op.apply cfg1' cfg2').lookup name := by
  cases op with
  | and => rw [Operator.apply, Operator.apply, lookup_configAnd, lookup_configAnd, h1, h2]
  | add => rw [Operator.apply, Operator.apply, lookup_configAdd, lookup_configAdd, h1, h2]
  | addMod => rw [Operator.apply, Operator.apply, lookup_configAdd, lookup_configAdd, h1, h2]
  | diff => rw [Operator.apply, Operator.apply, lookup_configDiff, lookup_configDiff, h1, h2]
  | sub => rw [Operator.apply, Operator.apply, lookup_configSub, lookup_configSub, h1, h2]

theorem normal_of_ne {val : Value} (h : val ≠ no) : normal val = val := if_neg h

theorem Literal.map_normal {cfg : Config} (h : Literal cfg) (name : Name) :
    (cfg.lookup name).map normal = cfg.lookup name := by
  cases hval : cfg.lookup name with
  | none => rfl
  | some val =>
    have hne : val ≠ no := by
      rintro rfl
      exact h name hval
    rw [Option.map_some, normal_of_ne hne]

theorem Printable.load_dump {cfg : Config} (h : Printable cfg) : Printable (loadConfig pre (dumpConfig pre cfg)) := by
  intro name val hval
  rw [lookup_load_dump pre h] at hval
  obtain ⟨old, hold, rfl⟩ := Option.map_eq_some_iff.mp hval
  obtain ⟨hname, hvalue⟩ := h name old hold
  refine ⟨hname, ?_⟩
  rw [normal]
  split
  · exact ⟨by decide, by decide⟩
  · exact hvalue

/-! ## One run or several -/

/-- The results of two ways to evaluate an expression. -/
def Agree (R : Config → Config → Prop) : Option Config → Option Config → Prop
  | some cfg, some cfg' => Printable cfg ∧ Printable cfg' ∧ R cfg cfg'
  | none, none => True
  | _, _ => False

def Equal (cfg cfg' : Config) : Prop := Literal cfg ∧ ∀ name, cfg.lookup name = cfg'.lookup name

theorem Agree.op {R S : Config → Config → Prop} {op : Operator}
    (hop : ∀ cfg1 cfg1' cfg2 cfg2', R cfg1 cfg1' → R cfg2 cfg2' → S (op.apply cfg1 cfg2) (op.apply cfg1' cfg2'))
    {left left' right right' : Option Config} (hl : Agree R left left') (hr : Agree R right right') :
    Agree S (left.bind fun cfg1 => right.map fun cfg2 => op.apply cfg1 cfg2)
      (left'.bind fun cfg1 => right'.map fun cfg2 => op.apply cfg1 cfg2) := by
  match left, left', right, right' with
  | none, none, _, _ => trivial
  | some _, some _, none, none => trivial
  | some cfg1, some cfg1', some cfg2, some cfg2' =>
    exact ⟨hl.1.apply hr.1 op, hl.2.1.apply hr.2.1 op, hop _ _ _ _ hl.2.2 hr.2.2⟩

/-- A run of its own changes `n` only. -/
theorem Agree.stage {R : Config → Config → Prop}
    (hR : ∀ cfg cfg' cfg'', R cfg cfg' → (∀ name, cfg''.lookup name = (cfg'.lookup name).map normal) → R cfg cfg'')
    {result : Option Config} {e' : Expr} (h : Agree R result (e'.eval pre files)) {name : FileName} {out : List Char}
    (hout : kconfig pre files e'.args = some out) (hfile : files name.arg = some out) :
    Agree R result ((Expr.file name).eval pre files) := by
  rw [kconfig_args] at hout
  obtain ⟨cfg', hcfg', rfl⟩ := Option.map_eq_some_iff.mp hout
  rw [hcfg'] at h
  rw [Expr.eval, hfile]
  match result with
  | some cfg => exact ⟨h.1, h.2.1.load_dump, hR _ _ _ h.2.2 (lookup_load_dump pre h.2.1)⟩

theorem staged_equal {e e' : Expr} (hprint : e.All pre files Printable) (hliteral : e.All pre files Literal)
    (h : Staged pre files e e') : Agree Equal (e.eval pre files) (e'.eval pre files) := by
  induction h with
  | file name =>
    rw [Expr.eval]
    cases hfile : files name.arg with
    | none => trivial
    | some text => exact ⟨hprint text hfile, hprint text hfile, hliteral text hfile, fun _ => rfl⟩
  | op sign _ _ ihl ihr =>
    refine (ihl hprint.1 hliteral.1).op ?_ (ihr hprint.2 hliteral.2)
    intro cfg1 cfg1' cfg2 cfg2' h1 h2
    exact ⟨h1.1.apply h2.1 sign.op, lookup_apply_congr sign.op h1.2 h2.2⟩
  | stage _ hout hfile ih =>
    refine (ih hprint hliteral).stage ?_ hout hfile
    intro cfg cfg' cfg'' hequal hnormal
    refine ⟨hequal.1, fun name => ?_⟩
    rw [hnormal, ← hequal.2, hequal.1.map_normal]

theorem staged_same {e e' : Expr} (hprint : e.All pre files Printable) (hcomparable : e.Comparable pre files)
    (h : Staged pre files e e') : Agree Same (e.eval pre files) (e'.eval pre files) := by
  induction h with
  | file name =>
    rw [Expr.eval]
    cases hfile : files name.arg with
    | none => trivial
    | some text => exact ⟨hprint text hfile, hprint text hfile, fun _ => rfl⟩
  | op sign hl hr ihl ihr =>
    obtain ⟨hleft, hright, hcompare⟩ := hcomparable
    have hl' := ihl hprint.1 hleft
    have hr' := ihr hprint.2 hright
    rw [Expr.eval, Expr.eval]
    by_cases hop : sign.op = .and ∨ sign.op = .diff
    · -- these two compare values, which are the same here
      refine (staged_equal hprint.1 (hcompare hop).1 hl).op ?_ (staged_equal hprint.2 (hcompare hop).2 hr)
      intro cfg1 cfg1' cfg2 cfg2' h1 h2 name
      rw [lookup_apply_congr sign.op h1.2 h2.2]
    · rw [not_or] at hop
      refine hl'.op ?_ hr'
      intro cfg1 cfg1' cfg2 cfg2' h1 h2
      cases hsign : sign.op with
      | and => exact absurd hsign hop.1
      | diff => exact absurd hsign hop.2
      | add => exact h1.add h2 false
      | addMod => exact h1.add h2 true
      | sub => exact h1.sub h2
  | stage _ hout hfile ih =>
    refine (ih hprint hcomparable).stage ?_ hout hfile
    intro cfg cfg' cfg'' hsame hnormal name
    have hidem : ∀ val, normal (normal val) = normal val := by
      intro val
      rw [normal, normal]
      split
      · decide
      · rfl
    rw [hnormal, Option.map_map, hsame name]
    congr 1
    funext val
    exact (hidem val).symm

theorem Agree.dump {result result' : Option Config} (h : Agree Same result result') :
    result.map (dumpConfig pre) = result'.map (dumpConfig pre) := by
  match result, result' with
  | none, none => rfl
  | some cfg, some cfg' => exact congrArg some (dumpConfig_congr pre h.2.2)

/-- The laws of the operators, the round trip through a file, and runs that are split. -/
theorem kconfig_laws (pre : Prefix) :
    (∀ a b : Config, (∀ name, a.lookup name ≠ none → b.lookup name ≠ none) →
      ∀ name, (configAdd a (configDiff a b) false).lookup name = b.lookup name) ∧
    (∀ (a b : Config) (name : Name), (configAdd a b false).lookup name = (b.lookup name).or (a.lookup name)) ∧
    (∀ (a b : Config) (name : Name),
      ((configAdd a b true).lookup name = some yes ↔ a.lookup name = some yes ∨ b.lookup name = some yes) ∧
      ((configAdd a b true).lookup name ≠ some yes →
        (configAdd a b true).lookup name = (b.lookup name).or (a.lookup name))) ∧
    (∀ a : Config, Printable a → ∀ name, (loadConfig pre (dumpConfig pre a)).lookup name = (a.lookup name).map normal) ∧
    (∀ (files : Files) (e e' : Expr), e.All pre files Printable → e.Comparable pre files → Staged pre files e e' →
      kconfig pre files e.args = kconfig pre files e'.args) := by
  have hplain : ∀ (a b : Config) (name : Name), (configAdd a b false).lookup name = (b.lookup name).or (a.lookup name) := by
    intro a b name
    rw [lookup_configAdd, if_neg (fun h => Bool.false_ne_true h.1)]
  refine ⟨?_, hplain, ?_, fun a ha => lookup_load_dump pre ha, ?_⟩
  · intro a b hkeys name
    rw [hplain, lookup_configDiff]
    split
    · rename_i hsame
      rw [Option.none_or, hsame]
    · cases hb : b.lookup name with
      | some val => rfl
      | none =>
        rw [Option.none_or]
        by_contra ha
        exact hkeys name ha hb
  · intro a b name
    rw [lookup_configAdd]
    by_cases ha : a.lookup name = some yes
    · rw [if_pos ⟨rfl, ha⟩]
      exact ⟨iff_of_true ha (Or.inl ha), fun h => absurd ha h⟩
    · rw [if_neg fun h => ha h.2]
      refine ⟨?_, fun _ => rfl⟩
      cases b.lookup name with
      | none => exact (or_iff_left (Option.some_ne_none _).symm).symm
      | some val => exact (or_iff_right ha).symm
  · intro files e e' hprint hcomparable hstaged
    rw [kconfig_args, kconfig_args]
    exact (staged_same hprint hcomparable hstaged).dump

/-! ## Names and values that make a difference -/

/-- A file that says `n` and one that says not set. -/
def twoFiles : Files := fun name =>
  if name = ['a'] then some (dumpConfig configPrefix ((∅ : Config).insert ['X'] yes))
  else if name = ['n'] then some (configPrefix.chars ++ ['X', '=', 'n', '\n'])
  else if name = ['u'] then some (dumpConfig configPrefix ((∅ : Config).insert ['X'] no))
  else none

def fileA : FileName := ⟨['a'], by decide, by decide⟩
def fileN : FileName := ⟨['n'], by decide, by decide⟩
def fileU : FileName := ⟨['u'], by decide, by decide⟩
def andSign : Sign := ⟨['&'], .and, by decide⟩
def addSign : Sign := ⟨['+'], .add, by decide⟩

/-- The name holds the words that come behind names. -/
def oddName : Name := 'A' :: isNotSet

theorem printable_single {val : Value} (hval : ValueOk val) : Printable ((∅ : Config).insert ['X'] val) := by
  intro name v hv
  by_cases hname : name = ['X']
  · subst hname
    rw [AList.lookup_insert] at hv
    obtain rfl := Option.some.inj hv
    exact ⟨⟨by decide, by decide, by decide, by decide⟩, hval⟩
  · rw [AList.lookup_insert_ne hname] at hv
    cases hv

theorem kconfig_laws_two_files :
    (configAdd ((∅ : Config).insert ['X'] no) (configDiff ((∅ : Config).insert ['X'] no)
      ((∅ : Config).insert ['X'] yes)) false).lookup ['X'] = some yes ∧
    (loadConfig configPrefix (dumpConfig configPrefix ((∅ : Config).insert ['X'] no))).lookup ['X'] = some undef ∧
    kconfig configPrefix twoFiles (Expr.op addSign (.file fileA) (.file fileN)).args =
      kconfig configPrefix twoFiles (Expr.op addSign (.file fileA) (.file fileU)).args := by
  obtain ⟨hdiff, -, -, hload, hruns⟩ := kconfig_laws configPrefix
  have hyes : ValueOk yes := ⟨by decide, by decide⟩
  have hno : ValueOk no := ⟨by decide, by decide⟩
  refine ⟨?_, (hload _ (printable_single hno) ['X']).trans rfl, hruns _ _ _ ?_ ?_ ?_⟩
  · refine (hdiff _ _ (fun name hname => ?_) ['X']).trans rfl
    by_cases h : name = ['X']
    · subst h
      decide
    · rw [AList.lookup_insert_ne h] at hname
      exact absurd rfl hname
  · refine ⟨fun text htext => ?_, fun text htext => ?_⟩
    · obtain rfl := Option.some.inj htext
      exact printable_single hyes
    · obtain rfl := Option.some.inj htext
      exact printable_single hno
  · refine ⟨trivial, trivial, fun h => ?_⟩
    rcases h with h | h
    · cases h
    · cases h
  · apply Staged.op
    · exact Staged.file fileA
    · exact Staged.stage (Staged.file fileN) (by decide) rfl

theorem kconfig_laws_fail :
    (oddName ≠ [] ∧ '=' ∉ oddName ∧ '\n' ∉ oddName ∧
      (loadConfig configPrefix (dumpConfig configPrefix ((∅ : Config).insert oddName no))).lookup oddName = none) ∧
    (Staged configPrefix twoFiles (.op andSign (.file fileN) (.file fileU)) (.op andSign (.file fileU) (.file fileU)) ∧
      kconfig configPrefix twoFiles (Expr.op andSign (.file fileN) (.file fileU)).args = some [] ∧
      kconfig configPrefix twoFiles (Expr.op andSign (.file fileU) (.file fileU)).args = twoFiles fileU.arg) := by
  refine ⟨by decide, ?_, by decide, by decide⟩
  apply Staged.op
  · exact Staged.stage (Staged.file fileN) (by decide) rfl
  · exact Staged.file fileU

end Neufbox.Kconfig
