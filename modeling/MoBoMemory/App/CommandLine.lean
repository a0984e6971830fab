import MoBoMemory.App.Coverage
import MoBoMemory.App.ItemExpansion

/-!
# The command line

`parse` takes one option after the other and stops at the first one that it does not like.  Every option
writes into fields of its own, so that the parameters of a command line that is accepted are those of its
options of each kind alone.
-/

namespace MoBoMemory.App

open Base Driver TestLib

def errUse : Nat := 0xA0000002
def len64 : Nat := 64
def len128 : Nat := 128

/-- An option as `getopt_long` returns it, with `optarg`; the last one is an option that it does not know. -/
inductive CliOption where
  | cpu (optarg : List Char)
  | testmode (optarg : List Char)
  | range (optarg : List Char)
  | verbose (optarg : List Char)
  | mode (optarg : List Char)
  | exitError
  | listInfo
  | clearEcc
  | comparison
  | version
  | unknown
deriving DecidableEq

/-- The arguments of the program: `-list` and no other, or the options that `getopt_long` returns one after the
other and whether other arguments are left. -/
inductive Arguments where
  | list
  | options (opts : List CliOption) (left : Bool)

/-- How the parsing goes on: a write outside an array, the end of the program, a return code, or a value. -/
inductive CliOutcome (α : Type) where
  | outside
  | exits
  | refused (ret : Nat)
  | parsed (a : α)

namespace CliOutcome

variable {α β : Type}

def map (f : α → β) : CliOutcome α → CliOutcome β
  | .outside => .outside
  | .exits => .exits
  | .refused ret => .refused ret
  | .parsed a => .parsed (f a)

def andThen (outcome : CliOutcome α) (next : α → CliOutcome β) : CliOutcome β :=
  match outcome with
  | .outside => .outside
  | .exits => .exits
  | .refused ret => .refused ret
  | .parsed a => next a

@[simp] theorem map_eq_parsed {f : α → β} {outcome : CliOutcome α} {b : β} :
    outcome.map f = .parsed b ↔ ∃ a, outcome = .parsed a ∧ f a = b := by
  cases outcome <;> simp [map]

@[simp] theorem map_eq_outside {f : α → β} {outcome : CliOutcome α} :
    outcome.map f = .outside ↔ outcome = .outside := by
  cases outcome <;> simp [map]

@[simp] theorem map_eq_refused {f : α → β} {outcome : CliOutcome α} {ret : Nat} :
    outcome.map f = .refused ret ↔ outcome = .refused ret := by
  cases outcome <;> simp [map]

@[simp] theorem andThen_eq_parsed {next : α → CliOutcome β} {outcome : CliOutcome α} {b : β} :
    outcome.andThen next = .parsed b ↔ ∃ a, outcome = .parsed a ∧ next a = .parsed b := by
  cases outcome <;> simp [andThen]

end CliOutcome

def ParseOutcome.toCli : ParseOutcome → CliOutcome TestItem
  | .outside => .outside
  | .refused ret => .refused ret
  | .parsed items => .parsed items

/-- `p->start`, `p->end`, `start_str` and `end_str`. -/
structure RangeText where
  start : Nat
  stop : Nat
  startStr : List Char
  endStr : List Char

/-- What the options write: fields of `test_parm`, and the two strings of `-r`. -/
@[ext]
structure CliParm where
  cpu : Int
  testItem : TestItem
  range : RangeText
  verbose : Int
  mode : TestMode
  exitError : Bool
  listInfo : Bool
  clearEcc : Bool
  noComp : Int

/-- What `main` and `parse` begin with. -/
def CliParm.initial : CliParm where
  cpu := noSpecifyCpu
  testItem := fun _ => (-1, -1)
  range := ⟨0, 0xffffffffffff, [], []⟩
  verbose := 0
  mode := .locally
  exitError := false
  listInfo := false
  clearEcc := false
  noComp := 0

/-- `CheckAllDigits`. -/
def checkAllDigits (str : List Char) : Bool := str.all fun c => c ≤ '9' && '0' ≤ c

/-- The argument starts with `cpu`, in small letters or capitals. -/
def CpuPrefixed (str : List Char) : Prop :=
  (str[0]? = some 'c' ∨ str[0]? = some 'C') ∧ (str[1]? = some 'p' ∨ str[1]? = some 'P') ∧
    (str[2]? = some 'u' ∨ str[2]? = some 'U')

instance (str : List Char) : Decidable (CpuPrefixed str) := inferInstanceAs (Decidable (_ ∧ _ ∧ _))

/-- The option `-d`. -/
def cpuOption (optarg : List Char) : CliOutcome Int :=
  if len64 ≤ optarg.length then .outside
  else if optarg.length < 4 then .refused errParam
  else if ¬ CpuPrefixed optarg then .refused errParam
  else if (optarg.drop 3).any fun c => '9' < c || c < '0' then .refused errParam
  else if atoi (optarg.drop 3) < 0 ∨ coreCount ≤ atoi (optarg.drop 3) then .refused errParam
  else .parsed (atoi (optarg.drop 3))

/-- The option `-r`. -/
def rangeOption (sh : Shifter) (r : RangeText) (optarg : List Char) : CliOutcome RangeText :=
  if len256 ≤ optarg.length then .outside
  else if optarg.length < 3 then .refused errParam
  else
    let tokens := strtok ',' optarg
    let startStr := tokens[0]?.getD r.startStr
    let endStr := tokens[1]?.getD r.endStr
    if len128 ≤ startStr.length ∨ len128 ≤ endStr.length then .outside
    else
      let first := getHexAddress sh startStr r.start
      if first.1 ≠ errSuccess then .refused first.1
      else
        let second := getHexAddress sh endStr r.stop
        if second.1 ≠ errSuccess then .refused second.1
        else .parsed ⟨first.2, second.2, startStr, endStr⟩

/-- The option `-p`. -/
def verboseOption (optarg : List Char) : CliOutcome Int :=
  if checkAllDigits optarg = false then .refused errParam
  else if atoi optarg = 0 then .parsed 0
  else if atoi optarg = 1 then .parsed 1
  else if atoi optarg = 2 then .parsed 2
  else .refused errParam

/-- The option `-m`. -/
def modeOption (optarg : List Char) : CliOutcome TestMode :=
  if checkAllDigits optarg = false then .refused errParam
  else if atoi optarg = 0 then .parsed .locally
  else if atoi optarg = 1 then .parsed .remote
  else if atoi optarg = 2 then .parsed .specific
  else .refused errParam

/-- The `switch` for one option. -/
def parseOption (sh : Shifter) (p : CliParm) : CliOption → CliOutcome CliParm
  | .cpu optarg => (cpuOption optarg).map fun cpu => { p with cpu := cpu }
  | .testmode optarg => (testModeOption p.testItem optarg).toCli.map fun items => { p with testItem := items }
  | .range optarg => (rangeOption sh p.range optarg).map fun r => { p with range := r }
  | .verbose optarg => (verboseOption optarg).map fun verbose => { p with verbose := verbose }
  | .mode optarg => (modeOption optarg).map fun mode => { p with mode := mode }
  | .exitError => .parsed { p with exitError := true }
  | .listInfo => .parsed { p with listInfo := true }
  | .clearEcc => .parsed { p with clearEcc := true }
  | .comparison => .parsed { p with noComp := 1 }
  | .version => .exits
  | .unknown => .refused errUse

/-- The loop over the options. -/
def parseOptions (sh : Shifter) : CliParm → List CliOption → CliOutcome CliParm
  | p, [] => .parsed p
  | p, o :: opts => (parseOption sh p o).andThen fun p => parseOptions sh p opts

/-- `parse`; with `-list` alone it prints the usage and ends the program. -/
def parse (sh : Shifter) : Arguments → CliOutcome CliParm
  | .list => .exits
  | .options opts left =>
      (parseOptions sh .initial opts).andThen fun p => if left then .refused errUse else .parsed p

/-! ## What a command line says -/

namespace CliOption

def cpuArg : CliOption → Option (List Char)
  | cpu optarg => some optarg
  | _ => none

def testmodeArg : CliOption → Option (List Char)
  | testmode optarg => some optarg
  | _ => none

def rangeArg : CliOption → Option (List Char)
  | range optarg => some optarg
  | _ => none

def verboseArg : CliOption → Option (List Char)
  | verbose optarg => some optarg
  | _ => none

def modeArg : CliOption → Option (List Char)
  | mode optarg => some optarg
  | _ => none

/-- The argument fits into the arrays that it is copied to. -/
def Fits : CliOption → Prop
  | cpu s => s.length < len64
  | testmode s => s.length < len256 ∧
      (isLegalStr s '~' ',' = errSuccess → RowsFit len16 (itemCount * len16) (itemPieces s))
  | range s => s.length < len256 ∧ ∀ t ∈ (strtok ',' s).take 2, t.length < len128
  | _ => True

end CliOption

/-- The number that decimal digits make as an `int`, if that is below the bound; more than one number makes
the same `int`. -/
def digitsBelow (bound : Nat) (ds : List Char) : Option Nat :=
  if (ds.all fun c => IsDigit 10 c) = true ∧ numeral 10 ds < 2 ^ 63 ∧ numeral 10 ds % 2 ^ 32 < bound then
    some (numeral 10 ds % 2 ^ 32)
  else none

/-- The number behind `cpu`. -/
def cpuNumber (s : List Char) : Option Int :=
  if s.length < len64 ∧ 4 ≤ s.length ∧ CpuPrefixed s then
    (digitsBelow coreCount (s.drop 3)).map Int.ofNat
  else none

def verboseLevel (s : List Char) : Option Int := (digitsBelow 3 s).map Int.ofNat

def testModes : List TestMode := [.locally, .remote, .specific]

def modeGiven (s : List Char) : Option TestMode := (digitsBelow 3 s).bind fun n => testModes[n]?

/-- All the arguments are read, and the last one decides. -/
structure LastGiven {α : Type} (read : List Char → Option α) (start : α) (args : List (List Char)) (a : α) :
    Prop where
  all : ∀ s ∈ args, (read s).isSome = true
  last : a = (args.getLast?.bind read).getD start

/-- One argument after the other, each over what the ones before it have left. -/
def inTurn {α : Type} (f : α → List Char → CliOutcome α) : α → List (List Char) → CliOutcome α
  | a, [] => .parsed a
  | a, s :: args => (f a s).andThen fun a => inTurn f a args

/-- The parameters, as they follow from the options of each kind. -/
@[mk_iff]
structure Given (sh : Shifter) (p : CliParm) (opts : List CliOption) (p' : CliParm) : Prop where
  cpu : LastGiven cpuNumber p.cpu (opts.filterMap CliOption.cpuArg) p'.cpu
  testItem : inTurn (fun items s => (testModeOption items s).toCli) p.testItem
    (opts.filterMap CliOption.testmodeArg) = .parsed p'.testItem
  range : inTurn (rangeOption sh) p.range (opts.filterMap CliOption.rangeArg) = .parsed p'.range
  verbose : LastGiven verboseLevel p.verbose (opts.filterMap CliOption.verboseArg) p'.verbose
  mode : LastGiven modeGiven p.mode (opts.filterMap CliOption.modeArg) p'.mode
  exitError : p'.exitError = (p.exitError || opts.contains .exitError)
  listInfo : p'.listInfo = (p.listInfo || opts.contains .listInfo)
  clearEcc : p'.clearEcc = (p.clearEcc || opts.contains .clearEcc)
  noComp : p'.noComp = if opts.contains .comparison then 1 else p.noComp
  known : CliOption.version ∉ opts ∧ CliOption.unknown ∉ opts

/-! ## The numbers -/

section Numbers

variable {s ds : List Char} {bound n : Nat} {c v : Int} {mode : TestMode}

theorem digitsBelow_eq_some (hbound : bound ≤ 2 ^ 31) : digitsBelow bound ds = some n ↔
    (∀ c ∈ ds, IsDigit 10 c) ∧ atoi ds = n ∧ n < bound := by
  have hall : (ds.all fun c => IsDigit 10 c) = true ↔ ∀ c ∈ ds, IsDigit 10 c := by simp
  by_cases hdigits : ∀ c ∈ ds, IsDigit 10 c
  · have hatoi : atoi ds = asInt (clampLong (numeral 10 ds)) := by
      rw [atoi_eq fun c hc => (hdigits c (List.mem_of_mem_head? hc)).plain, leadingNumber_eq hdigits]
    obtain ⟨hrange, hvalue⟩ := asInt_clampLong (numeral 10 ds) hbound
    rw [← hatoi] at hrange hvalue
    by_cases hin : numeral 10 ds < 2 ^ 63 ∧ numeral 10 ds % 2 ^ 32 < bound
    · rw [digitsBelow, if_pos ⟨hall.mpr hdigits, hin⟩, Option.some.injEq, hvalue hin]
      constructor
      · rintro rfl
        exact ⟨hdigits, rfl, hin.2⟩
      · rintro ⟨-, hn, -⟩
        exact Int.ofNat_inj.mp hn
    · rw [digitsBelow, if_neg fun h => hin h.2]
      refine iff_of_false (by simp) ?_
      rintro ⟨-, hn, hlt⟩
      exact hin (hrange.mp (by omega))
  · rw [digitsBelow, if_neg fun h => hdigits (hall.mp h.1)]
    exact iff_of_false (by simp) fun h => hdigits h.1

theorem checkAllDigits_eq : checkAllDigits s = true ↔ ∀ c ∈ s, IsDigit 10 c := by
  simp [checkAllDigits, isDigit_ten]

theorem any_nonDigit : (ds.any fun c => '9' < c || c < '0') = false ↔ ∀ c ∈ ds, IsDigit 10 c := by
  simp [isDigit_ten]

theorem cpuOption_eq : cpuOption s = .parsed c ↔ cpuNumber s = some c := by
  rw [cpuOption, cpuNumber]
  by_cases hshape : s.length < len64 ∧ 4 ≤ s.length ∧ CpuPrefixed s
  · obtain ⟨hshort, hlong, hprefix⟩ := hshape
    rw [if_neg (by omega), if_neg (by omega), if_neg (not_not.mpr hprefix),
      if_pos (show s.length < len64 ∧ 4 ≤ s.length ∧ CpuPrefixed s from ⟨hshort, hlong, hprefix⟩),
      Option.map_eq_some_iff]
    simp only [digitsBelow_eq_some (show coreCount ≤ 2 ^ 31 by decide), ← any_nonDigit]
    split_ifs with hany hrange
    · simp [hany]
    · refine iff_of_false (by simp) ?_
      rintro ⟨n, ⟨-, hn, hlt⟩, -⟩
      omega
    · rw [CliOutcome.parsed.injEq]
      constructor
      · rintro rfl
        exact ⟨(atoi (s.drop 3)).toNat, ⟨by simpa using hany, by omega, by omega⟩, by simp; omega⟩
      · rintro ⟨n, ⟨-, hn, -⟩, rfl⟩
        exact hn
  · rw [if_neg hshape]
    refine iff_of_false ?_ (by simp)
    split_ifs <;> simp_all

-- The digits of 0, 1 or 2, or something else.
theorem digitsBelow_three (s : List Char) :
    (∃ n : Nat, checkAllDigits s = true ∧ atoi s = n ∧ digitsBelow 3 s = some n ∧ (n = 0 ∨ n = 1 ∨ n = 2)) ∨
      (checkAllDigits s = true → atoi s ≠ 0 ∧ atoi s ≠ 1 ∧ atoi s ≠ 2) ∧ digitsBelow 3 s = none := by
  cases hread : digitsBelow 3 s with
  | none =>
      refine Or.inr ⟨fun hdigits => ?_, rfl⟩
      have hnone : ∀ n : Nat, n < 3 → atoi s ≠ n := by
        intro n hn hatoi
        have hsome := (digitsBelow_eq_some (by decide)).mpr ⟨checkAllDigits_eq.mp hdigits, hatoi, hn⟩
        rw [hread] at hsome
        cases hsome
      exact ⟨hnone 0 (by decide), hnone 1 (by decide), hnone 2 (by decide)⟩
  | some n =>
      obtain ⟨hdigits, hatoi, hlt⟩ := (digitsBelow_eq_some (by decide)).mp hread
      exact Or.inl ⟨n, checkAllDigits_eq.mpr hdigits, hatoi, rfl, by omega⟩

theorem verboseOption_eq : verboseOption s = .parsed v ↔ verboseLevel s = some v := by
  rw [verboseOption, verboseLevel]
  rcases digitsBelow_three s with ⟨n, hdigits, hatoi, hread, rfl | rfl | rfl⟩ | ⟨hatoi, hread⟩
  · simp [hdigits, hatoi, hread]
  · simp [hdigits, hatoi, hread]
  · simp [hdigits, hatoi, hread]
  · rw [hread]
    split_ifs <;> simp_all

theorem modeOption_eq : modeOption s = .parsed mode ↔ modeGiven s = some mode := by
  rw [modeOption, modeGiven]
  rcases digitsBelow_three s with ⟨n, hdigits, hatoi, hread, rfl | rfl | rfl⟩ | ⟨hatoi, hread⟩
  · simp [hdigits, hatoi, hread, testModes]
  · simp [hdigits, hatoi, hread, testModes]
  · simp [hdigits, hatoi, hread, testModes]
  · rw [hread]
    split_ifs <;> simp_all

end Numbers

/-! ## The options -/

section Options

variable {sh : Shifter} {p p' : CliParm} {o : CliOption} {opts : List CliOption}

theorem lastGiven_nil {α : Type} {read : List Char → Option α} {start a : α} :
    LastGiven read start [] a ↔ a = start :=
  ⟨fun h => h.last, fun h => ⟨by simp, h⟩⟩

theorem lastGiven_cons {α : Type} {read : List Char → Option α} {start a : α} {s : List Char}
    {args : List (List Char)} :
    LastGiven read start (s :: args) a ↔ ∃ b, read s = some b ∧ LastGiven read b args a := by
  constructor
  · intro h
    obtain ⟨b, hb⟩ := Option.isSome_iff_exists.mp (h.all s List.mem_cons_self)
    refine ⟨b, hb, fun t ht => h.all t (List.mem_cons_of_mem s ht), ?_⟩
    rw [h.last, List.getLast?_cons]
    cases hlast : args.getLast? with
    | none => simp [hb]
    | some t =>
        obtain ⟨c, hc⟩ := Option.isSome_iff_exists.mp
          (h.all t (List.mem_cons_of_mem s (List.mem_of_getLast? hlast)))
        simp [hc]
  · rintro ⟨b, hb, hall, hlast⟩
    refine ⟨List.forall_mem_cons.mpr ⟨by simp [hb], hall⟩, ?_⟩
    rw [hlast, List.getLast?_cons]
    cases hend : args.getLast? with
    | none => simp [hb]
    | some t =>
        obtain ⟨c, hc⟩ := Option.isSome_iff_exists.mp (hall t (List.mem_of_getLast? hend))
        simp [hc]

theorem given_nil : Given sh p [] p' ↔ p = p' := by
  rw [given_iff, CliParm.ext_iff]
  simp [lastGiven_nil, inTurn, eq_comm]

-- An option goes into its own field, and the rest of the command line goes on from there.
theorem given_cons : Given sh p (o :: opts) p' ↔
    ∃ p₁, parseOption sh p o = .parsed p₁ ∧ Given sh p₁ opts p' := by
  cases o <;>
    simp [parseOption, given_iff, lastGiven_cons, inTurn, cpuOption_eq, verboseOption_eq, modeOption_eq,
      List.filterMap_cons, CliOption.cpuArg, CliOption.testmodeArg, CliOption.rangeArg, CliOption.verboseArg,
      CliOption.modeArg]
  -- what is left is where the argument that was read stands
  all_goals grind

theorem parseOptions_eq_parsed : parseOptions sh p opts = .parsed p' ↔ Given sh p opts p' := by
  induction opts generalizing p with
  | nil => rw [parseOptions, CliOutcome.parsed.injEq, given_nil]
  | cons o opts ih => simp only [parseOptions, CliOutcome.andThen_eq_parsed, ih, given_cons]

end Options

/-! ## The arrays -/

section Arrays

variable {sh : Shifter} {p p' : CliParm} {r r' : RangeText} {o : CliOption} {opts : List CliOption}
variable {s : List Char}

/-- The two strings of `-r` are inside their arrays. -/
def RangeText.Short (r : RangeText) : Prop := r.startStr.length < len128 ∧ r.endStr.length < len128

theorem cpuOption_eq_outside : cpuOption s = .outside ↔ ¬ s.length < len64 := by
  rw [cpuOption]
  split_ifs <;> simp_all

theorem verboseOption_ne_outside : verboseOption s ≠ .outside := by
  rw [verboseOption]
  split_ifs <;> simp

theorem modeOption_ne_outside : modeOption s ≠ .outside := by
  rw [modeOption]
  split_ifs <;> simp

theorem testModeOption_eq_outside {items : TestItem} : testModeOption items s = .outside ↔
    ¬ (s.length < len256 ∧
      (isLegalStr s '~' ',' = errSuccess → RowsFit len16 (itemCount * len16) (itemPieces s))) := by
  by_cases hlen : s.length < len256
  · by_cases hlegal : isLegalStr s '~' ',' = errSuccess
    · by_cases hfit : RowsFit len16 (itemCount * len16) (itemPieces s)
      · obtain ⟨hin, hout⟩ := testModeOption_fit items hlen hlegal hfit
        by_cases hall : AllInRange s
        · simp [hin hall, hlen, hfit]
        · simp [hout hall, hlen, hfit]
      · simp [testModeOption_unfit hlen hlegal hfit, hlegal, hfit]
    · simp [testModeOption_illegal hlen hlegal, hlen, hlegal]
  · simp [testModeOption_outside (not_lt.mp hlen), hlen]

theorem length_token {t : List Char} (ht : t ∈ (strtok ',' s).take 2) : t.length ≤ s.length :=
  (infix_of_mem_strtok (List.mem_of_mem_take ht)).length_le

theorem tokens_short (hr : r.Short) : (∀ t ∈ (strtok ',' s).take 2, t.length < len128) ↔
    ((strtok ',' s)[0]?.getD r.startStr).length < len128 ∧
      ((strtok ',' s)[1]?.getD r.endStr).length < len128 := by
  obtain ⟨hstart, hend⟩ := hr
  match strtok ',' s with
  | [] => simp [hstart, hend]
  | [t] => simp [hend]
  | t :: u :: ts => simp

theorem rangeOption_eq_outside (hr : r.Short) : rangeOption sh r s = .outside ↔
    ¬ (s.length < len256 ∧ ∀ t ∈ (strtok ',' s).take 2, t.length < len128) := by
  by_cases hlong : s.length < len256
  · by_cases hshort : s.length < 3
    · have htokens : ∀ t ∈ (strtok ',' s).take 2, t.length < len128 := by
        intro t ht
        calc t.length ≤ s.length := length_token ht
          _ < len128 := lt_trans hshort (by decide)
      rw [rangeOption, if_neg (not_le.mpr hlong), if_pos hshort]
      exact iff_of_false (by simp) (not_not.mpr ⟨hlong, htokens⟩)
    · rw [rangeOption, if_neg (not_le.mpr hlong), if_neg hshort, tokens_short hr]
      simp only []
      split_ifs with hfit hfirst hsecond
      · simp only [true_iff]
        omega
      all_goals
        rw [not_or, not_le, not_le] at hfit
        simp [hlong, hfit]
  · rw [rangeOption, if_pos (not_lt.mp hlong)]
    simp [hlong]

theorem rangeOption_short (h : rangeOption sh r s = .parsed r') : r'.Short := by
  simp only [rangeOption] at h
  split_ifs at h with hlong hshort hfit hfirst hsecond
  rw [not_or, not_le, not_le] at hfit
  obtain rfl := CliOutcome.parsed.inj h
  exact hfit

theorem parseOption_eq_outside (sh : Shifter) (hr : p.range.Short) :
    parseOption sh p o = .outside ↔ ¬ o.Fits := by
  cases o with
  | cpu s => simp [parseOption, CliOption.Fits, cpuOption_eq_outside]
  | testmode s =>
      have hcli : (testModeOption p.testItem s).toCli = .outside ↔ testModeOption p.testItem s = .outside := by
        cases testModeOption p.testItem s <;> simp [ParseOutcome.toCli]
      rw [parseOption, CliOutcome.map_eq_outside, hcli, testModeOption_eq_outside, CliOption.Fits]
  | range s => rw [parseOption, CliOutcome.map_eq_outside, rangeOption_eq_outside hr, CliOption.Fits]
  | verbose s => simp [parseOption, CliOption.Fits, verboseOption_ne_outside]
  | mode s => simp [parseOption, CliOption.Fits, modeOption_ne_outside]
  | _ => simp [parseOption, CliOption.Fits]

theorem parseOption_short (hr : p.range.Short) (h : parseOption sh p o = .parsed p') : p'.range.Short := by
  cases o with
  | range s =>
      rw [parseOption, CliOutcome.map_eq_parsed] at h
      obtain ⟨r, hr, rfl⟩ := h
      exact rangeOption_short hr
  | version => cases h
  | unknown => cases h
  | exitError | listInfo | clearEcc | comparison =>
      obtain rfl := CliOutcome.parsed.inj h
      exact hr
  | _ =>
      rw [parseOption, CliOutcome.map_eq_parsed] at h
      obtain ⟨a, -, rfl⟩ := h
      exact hr

-- The first option that does not fit ends it, if the ones before it are accepted.
theorem parseOptions_eq_outside (hr : p.range.Short) : parseOptions sh p opts = .outside ↔
    ∃ before o after, opts = before ++ o :: after ∧
      (∃ p', parseOptions sh p before = .parsed p') ∧ ¬ o.Fits := by
  induction opts generalizing p with
  | nil => simp [parseOptions]
  | cons o opts ih =>
      have hsplit : (∃ before o' after, o :: opts = before ++ o' :: after ∧
          (∃ p', parseOptions sh p before = .parsed p') ∧ ¬ o'.Fits) ↔
          ¬ o.Fits ∨ ∃ p₁, parseOption sh p o = .parsed p₁ ∧
            ∃ before o' after, opts = before ++ o' :: after ∧
              (∃ p', parseOptions sh p₁ before = .parsed p') ∧ ¬ o'.Fits := by
        constructor
        · rintro ⟨before, o', after, hopts, ⟨p', hbefore⟩, hfits⟩
          cases before with
          | nil =>
              obtain ⟨rfl, -⟩ := List.cons.inj hopts
              exact Or.inl hfits
          | cons o₁ before =>
              obtain ⟨rfl, hrest⟩ := List.cons.inj hopts
              obtain ⟨p₁, hstep, hbefore⟩ := CliOutcome.andThen_eq_parsed.mp hbefore
              exact Or.inr ⟨p₁, hstep, before, o', after, hrest, ⟨p', hbefore⟩, hfits⟩
        · rintro (hfits | ⟨p₁, hstep, before, o', after, hopts, ⟨p', hbefore⟩, hfits⟩)
          · exact ⟨[], o, opts, rfl, ⟨p, rfl⟩, hfits⟩
          · exact ⟨o :: before, o', after, by rw [hopts, List.cons_append],
              ⟨p', CliOutcome.andThen_eq_parsed.mpr ⟨p₁, hstep, hbefore⟩⟩, hfits⟩
      rw [hsplit, ← parseOption_eq_outside sh hr, parseOptions]
      cases hstep : parseOption sh p o with
      | parsed p₁ => simp [CliOutcome.andThen, ih (parseOption_short hr hstep)]
      | _ => simp [CliOutcome.andThen]

end Arrays

/-! ## Refused command lines -/

section Refused

variable {sh : Shifter} {p : CliParm} {o : CliOption} {opts : List CliOption} {ret : Nat}

/-- `ERR_PARAM` or `ERR_USE`. -/
def RefusalCode (ret : Nat) : Prop := ret = errParam ∨ ret = errUse

theorem getHexAddress_code (sh : Shifter) (str : List Char) (address : Nat) :
    (getHexAddress sh str address).1 = errSuccess ∨ (getHexAddress sh str address).1 = errParam := by
  rw [getHexAddress]
  split_ifs
  · cases hexLoop sh (scannedChars str).reverse 0 0 with
    | none => exact Or.inr rfl
    | some _ => exact Or.inl rfl
  · exact Or.inr rfl

theorem rangeOption_refused {r : RangeText} {s : List Char} (h : rangeOption sh r s = .refused ret) :
    ret = errParam := by
  simp only [rangeOption] at h
  split_ifs at h with hlong hshort hfit hfirst hsecond
  · exact (CliOutcome.refused.inj h).symm
  · rw [← CliOutcome.refused.inj h]
    exact (getHexAddress_code sh _ _).resolve_left hfirst
  · rw [← CliOutcome.refused.inj h]
    exact (getHexAddress_code sh _ _).resolve_left hsecond

theorem parseOption_refused (h : parseOption sh p o = .refused ret) : RefusalCode ret := by
  cases o with
  | cpu s =>
      rw [parseOption, CliOutcome.map_eq_refused, cpuOption] at h
      left
      split_ifs at h <;> cases h <;> rfl
  | testmode s =>
      rw [parseOption, CliOutcome.map_eq_refused] at h
      cases hoption : testModeOption p.testItem s with
      | outside => simp [hoption, ParseOutcome.toCli] at h
      | parsed items => simp [hoption, ParseOutcome.toCli] at h
      | refused ret' =>
          have hret : ret' = ret := by simpa [hoption, ParseOutcome.toCli] using h
          exact Or.inl (hret ▸ testModeOption_refused hoption)
  | range s =>
      rw [parseOption, CliOutcome.map_eq_refused] at h
      exact Or.inl (rangeOption_refused h)
  | verbose s =>
      rw [parseOption, CliOutcome.map_eq_refused, verboseOption] at h
      left
      split_ifs at h <;> cases h <;> rfl
  | mode s =>
      rw [parseOption, CliOutcome.map_eq_refused, modeOption] at h
      left
      split_ifs at h <;> cases h <;> rfl
  | unknown =>
      cases h
      exact Or.inr rfl
  | _ => cases h

theorem parseOptions_refused (h : parseOptions sh p opts = .refused ret) : RefusalCode ret := by
  induction opts generalizing p with
  | nil => cases h
  | cons o opts ih =>
      rw [parseOptions] at h
      cases hstep : parseOption sh p o with
      | outside => simp [hstep, CliOutcome.andThen] at h
      | exits => simp [hstep, CliOutcome.andThen] at h
      | refused ret' =>
          have hret : ret' = ret := by simpa [hstep, CliOutcome.andThen] using h
          exact parseOption_refused (hret ▸ hstep)
      | parsed p₁ => exact ih (p := p₁) (by simpa [hstep, CliOutcome.andThen] using h)

theorem parse_refused {args : Arguments} (h : parse sh args = .refused ret) : RefusalCode ret := by
  obtain _ | ⟨opts, left⟩ := args
  · cases h
  rw [parse] at h
  cases hopts : parseOptions sh .initial opts with
  | outside => simp [hopts, CliOutcome.andThen] at h
  | exits => simp [hopts, CliOutcome.andThen] at h
  | refused ret' =>
      have hret : ret' = ret := by simpa [hopts, CliOutcome.andThen] using h
      exact parseOptions_refused (hret ▸ hopts)
  | parsed p =>
      simp only [hopts, CliOutcome.andThen] at h
      split_ifs at h
      cases h
      exact Or.inr rfl

end Refused

/-! ## Accepted command lines -/

section Accepted

variable {sh : Shifter} {p : CliParm} {args : Arguments} {opts : List CliOption} {left : Bool}

theorem parse_eq_parsed : parse sh args = .parsed p ↔
    ∃ opts, args = .options opts false ∧ parseOptions sh .initial opts = .parsed p := by
  cases args with
  | list => simp [parse]
  | options opts left =>
      rw [parse, CliOutcome.andThen_eq_parsed]
      cases left <;> simp

theorem parse_given (h : parse sh (.options opts left) = .parsed p) : Given sh .initial opts p := by
  obtain ⟨opts', hargs, hopts⟩ := parse_eq_parsed.mp h
  obtain ⟨rfl, -⟩ := Arguments.options.inj hargs
  exact parseOptions_eq_parsed.mp hopts

/-- A command line is accepted if there is nothing but options, all of them known and no `-v`, and each of them
can be read, those of `-t` and `-r` over the ones before of the same kind; the parameters are then what the
last `-d`, `-p` and `-m` say, what the `-t` and the `-r` options make one after the other, and which of the
others occur, however the kinds are mixed. -/
theorem parse_accepts (sh : Shifter) (args : Arguments) (p : CliParm) :
    parse sh args = .parsed p ↔ ∃ opts, args = .options opts false ∧ Given sh .initial opts p := by
  simp only [parse_eq_parsed, parseOptions_eq_parsed]

/-- The parsing writes outside of an array exactly if an option does not fit whose predecessors are accepted. -/
theorem parse_overruns (sh : Shifter) (args : Arguments) :
    parse sh args = .outside ↔ ∃ before o after left, args = .options (before ++ o :: after) left ∧
      (∃ p, parse sh (.options before false) = .parsed p) ∧ ¬ o.Fits := by
  have hshort : CliParm.initial.range.Short := ⟨by decide, by decide⟩
  cases args with
  | list => simp [parse]
  | options opts left =>
      have hend : parse sh (.options opts left) = .outside ↔ parseOptions sh .initial opts = .outside := by
        rw [parse]
        cases parseOptions sh .initial opts <;> cases left <;> simp [CliOutcome.andThen]
      simp only [hend, parseOptions_eq_outside hshort, parse_eq_parsed, Arguments.options.injEq]
      constructor
      · rintro ⟨before, o, after, rfl, hbefore, hfits⟩
        exact ⟨before, o, after, left, ⟨rfl, rfl⟩, by simpa using hbefore, hfits⟩
      · rintro ⟨before, o, after, left, ⟨rfl, -⟩, hbefore, hfits⟩
        exact ⟨before, o, after, rfl, by simpa using hbefore, hfits⟩

-- The `-t` options alone.
theorem inTurn_testModes (outcome : ParseOutcome) (items : TestItem) (args : List (List Char)) :
    outcome.toCli.andThen (fun its => inTurn (fun items s => (testModeOption items s).toCli) its args) =
        .parsed items ↔
      args.foldl (fun outcome s => outcome.andThen fun items => testModeOption items s) outcome =
        .parsed items := by
  induction args generalizing outcome with
  | nil => cases outcome <;> simp [ParseOutcome.toCli, CliOutcome.andThen, inTurn]
  | cons s args ih =>
      rw [List.foldl_cons, ← ih]
      cases outcome <;> simp [ParseOutcome.toCli, ParseOutcome.andThen, CliOutcome.andThen, inTurn]

theorem Given.parseTestModes (h : Given sh .initial opts p) :
    parseTestModes (opts.filterMap CliOption.testmodeArg) = .parsed p.testItem :=
  (inTurn_testModes (.parsed CliParm.initial.testItem) p.testItem _).mp h.testItem

theorem LastGiven.mem {α : Type} {read : List Char → Option α} {start a : α} {args : List (List Char)}
    (h : LastGiven read start args a) : a = start ∨ ∃ s, read s = some a := by
  rw [h.last]
  cases hlast : args.getLast? with
  | none => exact Or.inl rfl
  | some s =>
      obtain ⟨b, hb⟩ := Option.isSome_iff_exists.mp (h.all s (List.mem_of_getLast? hlast))
      exact Or.inr ⟨s, by simp [hb]⟩

theorem cpuNumber_lt {s : List Char} {c : Int} (h : cpuNumber s = some c) : 0 ≤ c ∧ c < coreCount := by
  rw [cpuNumber] at h
  split_ifs at h
  obtain ⟨n, hn, rfl⟩ := Option.map_eq_some_iff.mp h
  have hlt := ((digitsBelow_eq_some (by decide)).mp hn).2.2
  exact ⟨Int.natCast_nonneg n, Int.ofNat_lt.mpr hlt⟩

theorem modeGiven_ne_all {s : List Char} {mode : TestMode} (h : modeGiven s = some mode) : mode ≠ .all := by
  obtain ⟨n, -, hn⟩ := Option.bind_eq_some_iff.mp h
  have hmem := List.mem_of_getElem? hn
  rintro rfl
  revert hmem
  decide

theorem testFunction_of_isItem {item : Int} (h : IsItem item) :
    ∃ f, testFunction item = some f ∧ f ≠ .bitFade := by
  obtain ⟨hlow, hhigh⟩ := h
  have hbound : item < 11 := hhigh
  interval_cases item <;> exact ⟨_, rfl, by decide⟩

theorem isItem_all : ∀ n ∈ (List.range itemCount).map Int.ofNat, IsItem n := by
  intro n hn
  obtain ⟨k, hk, rfl⟩ := List.mem_map.mp hn
  exact ⟨Int.natCast_nonneg k, Int.ofNat_lt.mpr (List.mem_range.mp hk)⟩

-- The -1 behind the items end the list.
theorem testItems_padded {items : List Int} (hitems : ∀ n ∈ items, IsItem n) (k : Nat) :
    testItems (items ++ List.replicate k (-1)) = items := by
  rw [testItems, List.takeWhile_append_of_pos fun n hn => decide_eq_true (hitems n hn).ne_neg_one,
    List.takeWhile_replicate]
  simp

theorem testItems_accepted {items : TestItem} {ps : List (Int × Int)} {slots : List Int}
    (hstores : StoresPairs items ps) (hslots : expandItems items = some slots) :
    testItems slots = if ps = [] then (List.range itemCount).map Int.ofNat else expansion ps := by
  split_ifs with hps
  · subst hps
    rw [expandItems_nil hstores] at hslots
    obtain rfl := Option.some.inj hslots
    exact testItems_padded isItem_all itemCount
  · rw [expandItems_cons hstores hps] at hslots
    split_ifs at hslots with hroom
    obtain rfl := Option.some.inj hslots
    exact testItems_padded (fun n hn => isItem_of_mem_expansion hstores hn) _

theorem isItem_accepted {items : TestItem} {ps : List (Int × Int)} {slots : List Int}
    (hstores : StoresPairs items ps) (hslots : expandItems items = some slots) :
    ∀ n ∈ testItems slots, IsItem n := by
  rw [testItems_accepted hstores hslots]
  split_ifs
  · exact isItem_all
  · exact fun n hn => isItem_of_mem_expansion hstores hn

-- Without `-t` there are the eleven items.
theorem testItems_default (h : Given sh .initial opts p)
    (hnone : opts.filterMap CliOption.testmodeArg = []) {slots : List Int}
    (hslots : expandItems p.testItem = some slots) :
    testItems slots = (List.range itemCount).map Int.ofNat := by
  have hinit : p.testItem = fun _ => (-1, -1) := by
    have hturn := h.testItem
    rw [hnone] at hturn
    exact (CliOutcome.parsed.inj hturn).symm
  have hempty : storedPairs p.testItem = [] := by
    rw [hinit]
    decide
  rw [testItems_accepted (parseTestModes_storesPairs h.parseTestModes) hslots, if_pos hempty]

end Accepted

/-- `-d CPU1 -t 10,0 -m 2 -t 10 -p 1 -m 0`. -/
def twoItems : List CliOption :=
  [.cpu "CPU1".toList, .testmode "10,0".toList, .mode "2".toList, .testmode "10".toList, .verbose "1".toList,
    .mode "0".toList]

/-- The run of the small machine, with the slots of the command line. -/
def twoItemsRun : CleanRun smallMachine :=
  { smallRun with testItem := [10, 0] ++ List.replicate 20 (-1), loaded := rfl }

theorem twoItems_parsed : ∃ p, parse x86Shifter (.options twoItems false) = .parsed p ∧
    expandItems p.testItem = some twoItemsRun.testItem :=
  ⟨_, rfl, by decide⟩

end MoBoMemory.App
