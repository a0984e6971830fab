import MoBoMemory.App.CmdlineLimit
import MoBoMemory.App.Coverage
import MoBoMemory.App.E820Entries

/-!
# From the firmware's map to the driver

When the program starts it reads the directories of `/sys/firmware/memmap` in the order in which `readdir`
gives them, each with its three text files, and the memory limit of the kernel command line, and hands both to
the driver.  What the driver gets is the map of the firmware, entry by entry, whatever that order is, and the
pages that a run then tests are those that the firmware calls System RAM.
-/

namespace MoBoMemory.App

open Base Driver

def e820Reserved : Int := 2
def e820Acpi : Int := 3
def e820Nvs : Int := 4

/-- `strncasecmp(pre, s, strlen(pre)) == 0`. -/
def samePrefix (pre s : List Char) : Bool := (s.take pre.length).map Char.toLower = pre.map Char.toLower

def systemRam : List Char := "System RAM".toList
def acpiTables : List Char := "ACPI Tables".toList
def acpiNvs : List Char := "ACPI Non-volatile Storage".toList

def e820StringToType (stringType : List Char) : Int :=
  if samePrefix systemRam stringType then e820Ram
  else if samePrefix acpiTables stringType then e820Acpi
  else if samePrefix acpiNvs stringType then e820Nvs
  else e820Reserved

/-- The number that `%lx` reads, if there is one. -/
def scanHex (s : List Char) : Option Nat :=
  let t := s.dropWhile isspace
  let u := if t.head? = some '-' ∨ t.head? = some '+' then t.drop 1 else t
  let w := if u[0]? = some '0' ∧ (u[1]? = some 'x' ∨ u[1]? = some 'X') ∧ u[2]?.any fun d => IsDigit 16 d
    then u.drop 2 else u
  let ds := w.takeWhile fun c => IsDigit 16 c
  if ds = [] then none
  else if 2 ^ 64 ≤ numeral 16 ds then some (2 ^ 64 - 1)
  else if t.head? = some '-' then some ((2 ^ 64 - numeral 16 ds) % 2 ^ 64)
  else some (numeral 16 ds)

/-- `sscanf(s, "0x%lx", &v)`, if it stores a number. -/
def sscanfHex (s : List Char) : Option Nat := if s.take 2 = ['0', 'x'] then scanHex (s.drop 2) else none

/-- An entry of the directory: a regular file, or a directory with what its files hold, if they can be
opened. -/
structure MapDir where
  name : List Char
  regular : Bool
  start : Option (List Char)
  stop : Option (List Char)
  type : Option (List Char)

/-- What a buffer and a number of `e820handler` hold before anything is stored there. -/
structure Unwritten where
  text : List Char
  address : Nat

/-- `fgets` into one of the three buffers of 30 characters; an empty file leaves the buffer as it was. -/
def readField (u : Unwritten) (file : List Char) : List Char :=
  if file = [] then u.text else fgetsLine 30 file

/-- The first three arguments of the call of `e820AddEntry`, if the handler comes to it. -/
def e820handler (u : Unwritten) (dir : MapDir) : Option (Nat × Nat × Int) :=
  match dir.start, dir.stop, dir.type with
  | some start, some stop, some type =>
      some ((sscanfHex (readField u start)).getD u.address, (sscanfHex (readField u stop)).getD u.address,
        e820StringToType (readField u type))
  | _, _, _ => none

/-- One turn of the loop of `EnumerateDirByPath`; a negative number as a name would be an index outside the
map. -/
def enumerateEntry (xMax : Nat) (u : Unwritten) (m : Mye820Map) (dir : MapDir) : Option Mye820Map :=
  if dir.regular = true ∨ dir.name = ['.'] ∨ dir.name = ['.', '.'] then some m
  else
    match e820handler u dir with
    | none => some m
    | some (start, stop, type) =>
        if atoi dir.name < 0 ∧ start < stop then none
        else some (e820AddEntry xMax m start stop type (atoi dir.name).toNat).2

def enumerateDirByPath (xMax : Nat) (u : Unwritten) (dirs : List MapDir) : Option Mye820Map :=
  dirs.foldlM (enumerateEntry xMax u) emptyE820Map

/-- What the system calls answer: the directory, the command line, the device and the two ioctls. -/
structure Startup where
  dirs : Option (List MapDir)
  unwritten : Unwritten
  cmdline : Option (List Char)
  device : Bool
  copiedMap : Bool
  copiedLimit : Bool

/-- The return value and the globals of the driver afterwards. -/
def e820AndCmdlineInitialization (xMax : Nat) (ks : KernelSort) (d : Globals) (su : Startup) :
    Option (Int × Globals) :=
  (enumerateDirByPath xMax su.unwritten (su.dirs.getD [])).map fun m =>
    if m.nrMap = 0 then (-1, d)
    else
      match su.cmdline with
      | none => (-1, d)
      | some line =>
          let size := parseCmdLineParaMem (getFileString line)
          if size = 0 then (-1, d)
          else if su.device then
            let set := mmtestIoctl ks d (.memorySetE820Info m.entries su.copiedMap)
            if set.ret = 0 then
              let limit := mmtestIoctl ks set.globals (.memorySetMemInfo size su.copiedLimit)
              (if limit.ret = 0 then 0 else -1, limit.globals)
            else (-1, set.globals)
          else (0, d)

/-! ## What the firmware says -/

/-- An entry of the firmware's map, with its last byte.  It has more than one byte and is not the whole address
space. -/
structure FirmwareEntry where
  start : Nat
  last : Nat
  type : List Char
  wide : start < last
  last_lt : last < 2 ^ 64
  notWhole : ¬ (start = 0 ∧ last = 2 ^ 64 - 1)
  typed : type ≠ []
  line : '\n' ∉ type
  short : type.length < 29

namespace FirmwareEntry

/-- An address as the kernel shows it. -/
def shown (address : Nat) : List Char := ['0', 'x'] ++ Nat.toDigits 16 address ++ ['\n']

/-- The directory of the entry. -/
def dir (e : FirmwareEntry) (i : Nat) : MapDir :=
  ⟨Nat.toDigits 10 i, false, some (shown e.start), some (shown e.last), some (e.type ++ ['\n'])⟩

/-- The entry as the driver keeps it. -/
def entry (e : FirmwareEntry) : E820Entry := ⟨e.start, e.last - e.start + 1, u32 (e820StringToType e.type)⟩

end FirmwareEntry

/-- The directories that are entries of the map. -/
def MapDir.Subdirectory (dir : MapDir) : Prop :=
  ¬ (dir.regular = true ∨ dir.name = ['.'] ∨ dir.name = ['.', '.'])

instance decidableSubdirectory (dir : MapDir) : Decidable dir.Subdirectory :=
  inferInstanceAs (Decidable (¬ (_ ∨ _ ∨ _)))

/-! ## One directory -/

section Fields

variable {u : Unwritten} {text : List Char} {address : Nat}

-- A short line comes through whole.
theorem readField_line (hline : '\n' ∉ text) (hshort : text.length < 29) :
    readField u (text ++ ['\n']) = text ++ ['\n'] := by
  obtain ⟨n, hn⟩ : ∃ n, 30 - text.length = n + 2 := ⟨28 - text.length, by omega⟩
  rw [readField, if_neg (by simp), fgetsLine_append hline (by omega), hn, fgetsLine, if_pos rfl]

theorem samePrefix_newline {pre : List Char} (hpre : '\n' ∉ pre.map Char.toLower) :
    samePrefix pre (text ++ ['\n']) = samePrefix pre text := by
  by_cases hlen : pre.length ≤ text.length
  · rw [samePrefix, samePrefix, List.take_append_of_le_length hlen]
  · have hshort : samePrefix pre text = false := by
      refine decide_eq_false fun h => ?_
      have hsame := congrArg List.length h
      simp at hsame
      omega
    have hlong : samePrefix pre (text ++ ['\n']) = false := by
      refine decide_eq_false fun h => hpre ?_
      rw [List.take_of_length_le (by simp; omega)] at h
      rw [← h]
      simp
    rw [hshort, hlong]

theorem e820StringToType_newline : e820StringToType (text ++ ['\n']) = e820StringToType text := by
  have hprefix : ∀ pre ∈ [systemRam, acpiTables, acpiNvs],
      samePrefix pre (text ++ ['\n']) = samePrefix pre text := by
    intro pre hpre
    exact samePrefix_newline (by revert pre; decide)
  simp only [e820StringToType, hprefix systemRam (by simp), hprefix acpiTables (by simp),
    hprefix acpiNvs (by simp)]

-- `sscanf` reads back an address as the kernel shows it.
theorem sscanfHex_shown (haddress : address < 2 ^ 64) :
    sscanfHex (FirmwareEntry.shown address) = some address := by
  have hread : numeral? 16 (Nat.toDigits 16 address) = some address := numeral?_toDigits (by decide) (by decide)
  obtain ⟨hne, hdigits, hvalue⟩ := numeral?_eq_some.mp hread
  obtain ⟨c, cs, hcs⟩ := List.exists_cons_of_ne_nil hne
  have hend : EndsNumber ['\n'] := by
    intro c hc
    obtain rfl : '\n' = c := Option.some.inj hc
    decide
  have htake := (scan_digits (by decide) hread hend).1
  have hfirst : IsDigit 16 c := hdigits c (by simp [hcs])
  obtain ⟨hblank, hminus, hplus⟩ := hfirst.plain
  -- the second character of the digits is no `x`
  have hplain : ∀ x, x = 'x' ∨ x = 'X' → (Nat.toDigits 16 address ++ ['\n'])[1]? ≠ some x := by
    intro x hx hsecond
    have hmem := List.mem_of_getElem? hsecond
    rcases List.mem_append.mp hmem with hmem | hmem
    · have hdigit := hdigits x hmem
      rcases hx with rfl | rfl <;> revert hdigit <;> decide
    · rcases hx with rfl | rfl <;> simp at hmem
  have hskip : (Nat.toDigits 16 address ++ ['\n']).dropWhile isspace = Nat.toDigits 16 address ++ ['\n'] := by
    rw [hcs, List.cons_append, List.dropWhile_cons, if_neg (by simp [hblank])]
  have hhead : (Nat.toDigits 16 address ++ ['\n']).head? = some c := by simp [hcs]
  have hx := hplain 'x' (Or.inl rfl)
  have hX := hplain 'X' (Or.inr rfl)
  rw [sscanfHex, if_pos (by simp [FirmwareEntry.shown])]
  show scanHex (Nat.toDigits 16 address ++ ['\n']) = some address
  simp only [scanHex, hskip, hhead, Option.some.injEq, hminus, hplus, or_self, if_false, hx, hX, false_and,
    and_false, htake, if_neg hne, hvalue, if_neg (Nat.not_le.mpr haddress)]

end Fields

namespace FirmwareEntry

variable (e : FirmwareEntry) {i xMax : Nat}

/-- The call that the handler makes for the entry. -/
def call (hi : i < 2 ^ 31) : E820Call :=
  ⟨e.start, e.last, e820StringToType e.type, i, lt_trans e.wide e.last_lt, e.last_lt, hi⟩

theorem call_accepted (hi : i < 2 ^ 31) (hmax : i < xMax) : (e.call hi).Accepted xMax := ⟨hmax, e.wide⟩

theorem call_slot (hi : i < 2 ^ 31) (hmax : i < xMax) : (e.call hi).slot = e.entry :=
  (E820Call.slot_eq (e.call_accepted hi hmax)).mpr e.notWhole

theorem dir_subdirectory : (e.dir i).Subdirectory := by
  have hread : numeral? 10 (Nat.toDigits 10 i) = some i := numeral?_toDigits (by decide) (by decide)
  have hdigits := (numeral?_eq_some.mp hread).2.1
  have hdot : '.' ∉ Nat.toDigits 10 i := fun hmem => absurd (hdigits '.' hmem) (by decide)
  rintro (hregular | hname | hname)
  · cases hregular
  · exact hdot (by rw [show Nat.toDigits 10 i = ['.'] from hname]; simp)
  · exact hdot (by rw [show Nat.toDigits 10 i = ['.', '.'] from hname]; simp)

-- A turn of the loop makes the call of the entry.
theorem enumerateEntry_dir (u : Unwritten) (m : Mye820Map) (hi : i < 2 ^ 31) :
    enumerateEntry xMax u m (e.dir i) = some ((e.call hi).add xMax m).2 := by
  have hshown : ∀ address, address < 2 ^ 64 → readField u (shown address) = shown address := by
    intro address haddress
    have hlen : (Nat.toDigits 16 address).length ≤ 16 :=
      (Nat.length_toDigits_le_iff (by decide) (by decide)).mpr (by omega)
    have hread : numeral? 16 (Nat.toDigits 16 address) = some address :=
      numeral?_toDigits (by decide) (by decide)
    have hline : '\n' ∉ ['0', 'x'] ++ Nat.toDigits 16 address := by
      intro hmem
      rcases List.mem_append.mp hmem with hmem | hmem
      · revert hmem
        decide
      · exact absurd ((numeral?_eq_some.mp hread).2.1 _ hmem) (by decide)
    exact readField_line hline (by simp; omega)
  have hstart := lt_trans e.wide e.last_lt
  have hindex : atoi (Nat.toDigits 10 i) = i := atoi_toDigits hi
  have hhandler : e820handler u (e.dir i) = some (e.start, e.last, e820StringToType e.type) := by
    simp only [e820handler, dir, hshown _ hstart, hshown _ e.last_lt, readField_line e.line e.short,
      sscanfHex_shown hstart, sscanfHex_shown e.last_lt, e820StringToType_newline, Option.getD_some]
  have hname : (e.dir i).name = Nat.toDigits 10 i := rfl
  rw [enumerateEntry, if_neg e.dir_subdirectory, hhandler]
  simp only [hname, hindex]
  rw [if_neg (by omega), Int.toNat_natCast]
  rfl

end FirmwareEntry

/-! ## The whole map -/

section Maps

variable {xMax : Nat} {u : Unwritten} {dirs : List MapDir}

theorem enumerate_filter (m : Mye820Map) : dirs.foldlM (enumerateEntry xMax u) m =
    (dirs.filter fun dir => dir.Subdirectory).foldlM (enumerateEntry xMax u) m := by
  induction dirs generalizing m with
  | nil => rfl
  | cons dir dirs ih =>
      by_cases hdir : dir.Subdirectory
      · rw [List.filter_cons_of_pos (by simpa using hdir), List.foldlM_cons, List.foldlM_cons]
        exact bind_congr fun m' => ih m'
      · have hskip : enumerateEntry xMax u m dir = some m := if_pos (not_not.mp hdir)
        rw [List.filter_cons_of_neg (by simpa using hdir), List.foldlM_cons, hskip]
        exact ih m

variable {fw : List FirmwareEntry}

/-- The calls for the entries in this order. -/
def callsOf (hroom : fw.length < 2 ^ 31) (order : List (Fin fw.length)) : List E820Call :=
  order.map fun i => fw[i].call (lt_trans i.2 hroom)

theorem foldlM_dirs (hroom : fw.length < 2 ^ 31) (order : List (Fin fw.length)) (m : Mye820Map) :
    (order.map fun i => fw[i].dir i).foldlM (enumerateEntry xMax u) m =
      some ((callsOf hroom order).foldl (fun m c => (c.add xMax m).2) m) := by
  induction order generalizing m with
  | nil => rfl
  | cons i order ih =>
      rw [List.map_cons, List.foldlM_cons, fw[i].enumerateEntry_dir u m (lt_trans i.2 hroom)]
      exact ih _

theorem indices_callsOf (hroom : fw.length < 2 ^ 31) :
    (callsOf hroom (List.finRange fw.length)).map E820Call.entry = List.range fw.length := by
  rw [callsOf, List.map_map]
  exact List.map_coe_finRange_eq_range

theorem entries_callsOf (hroom : fw.length < 2 ^ 31) (hmax : fw.length ≤ xMax) :
    (e820MapOf xMax (callsOf hroom (List.finRange fw.length))).nrMap = fw.length ∧
      (e820MapOf xMax (callsOf hroom (List.finRange fw.length))).entries = fw.map FirmwareEntry.entry := by
  have hnodup : ((callsOf hroom (List.finRange fw.length)).map E820Call.entry).Nodup :=
    indices_callsOf hroom ▸ List.nodup_range
  have haccepted : ∀ c ∈ callsOf hroom (List.finRange fw.length), c.Accepted xMax := by
    intro c hc
    obtain ⟨i, -, rfl⟩ := List.mem_map.mp hc
    exact fw[i].call_accepted _ (lt_of_lt_of_le i.2 hmax)
  have hkeys : (keys E820Call.entry (callsOf hroom (List.finRange fw.length))).card = fw.length := by
    rw [keys, List.card_toFinset, indices_callsOf, List.nodup_range.dedup, List.length_range]
  have hcount : (e820MapOf xMax (callsOf hroom (List.finRange fw.length))).nrMap = fw.length := by
    rw [e820MapOf_nrMap haccepted, wholesReplaced_of_nodup (by simpa using hnodup), hkeys]
    omega
  refine ⟨hcount, ?_⟩
  rw [Mye820Map.entries, hcount]
  apply List.ext_getElem
  · simp
  · intro i hi hi'
    rw [List.length_map] at hi'
    have hlast : lastFor (callsOf hroom (List.finRange fw.length)) i =
        some (fw[i].call (lt_trans hi' hroom)) :=
      (lastWith_eq_some hnodup).mpr
        ⟨List.mem_map.mpr ⟨⟨i, hi'⟩, List.mem_finRange _, rfl⟩, rfl⟩
    rw [List.getElem_map, List.getElem_map, List.getElem_range, e820MapOf_map haccepted, hlast]
    exact fw[i].call_slot _ (lt_of_lt_of_le hi' hmax)

-- The order of the directories plays no part.
theorem enumerateDirByPath_eq (hroom : fw.length < 2 ^ 31) {order : List (Fin fw.length)}
    (horder : order.Perm (List.finRange fw.length))
    (hdirs : dirs.filter (fun dir => dir.Subdirectory) = order.map fun i => fw[i].dir i) :
    enumerateDirByPath xMax u dirs = some (e820MapOf xMax (callsOf hroom (List.finRange fw.length))) := by
  have hnodup : ((accepted xMax (callsOf hroom (List.finRange fw.length))).map E820Call.entry).Nodup :=
    (List.nodup_range (n := fw.length)).sublist (indices_callsOf hroom ▸ List.filter_sublist.map _)
  rw [enumerateDirByPath, enumerate_filter, hdirs, foldlM_dirs hroom]
  exact congrArg some (e820MapOf_perm (horder.symm.map _) hnodup)

end Maps

theorem ramPage_firmware (fw : List FirmwareEntry) (pfn : Nat) : RamPage (fw.map FirmwareEntry.entry) pfn ↔
    ∃ e ∈ fw, samePrefix systemRam e.type = true ∧
      e.start ≤ pfn * pageSize ∧ (pfn + 1) * pageSize ≤ e.last + 1 := by
  have htype : ∀ e : FirmwareEntry, u32 (e820StringToType e.type) = e820Ram ↔
      samePrefix systemRam e.type = true := by
    intro e
    unfold e820StringToType
    split_ifs with hram hacpi hnvs
    · exact iff_of_true rfl hram
    all_goals exact iff_of_false (by decide) hram
  simp only [RamPage, List.mem_map, exists_exists_and_eq_and, FirmwareEntry.entry, htype, E820Entry.HoldsPage]
  refine exists_congr fun e => and_congr_right fun _ => and_congr_right fun _ => and_congr_right fun _ => ?_
  have hwide := e.wide
  rw [show e.start + (e.last - e.start + 1) = e.last + 1 by omega]

/-- What the program meets when it starts: the firmware's map in a directory that comes in some order, a command
line with a limit, and a device that takes both. -/
structure Boots (su : Startup) (fw : List FirmwareEntry) (xMax v : Nat) : Prop where
  nonempty : fw ≠ []
  room : fw.length < 2 ^ 31 ∧ fw.length ≤ xMax
  listed : ∃ order : List (Fin fw.length), order.Perm (List.finRange fw.length) ∧
    ∃ dirs, su.dirs = some dirs ∧
      dirs.filter (fun dir => dir.Subdirectory) = order.map fun i => fw[i].dir i
  limited : ∃ line, su.cmdline = some line ∧ ReadsWord line v
  limit : v ≠ 0
  calls : su.device = true ∧ su.copiedMap = true ∧ su.copiedLimit = true

section Starts

variable {su : Startup} {fw : List FirmwareEntry} {xMax v : Nat}

theorem Boots.startup_eq (h : Boots su fw xMax v) (ks : KernelSort) (d : Globals) :
    (run ks d (settings (fw.map FirmwareEntry.entry) v)).map (fun d' => ((0 : Int), d')) =
      e820AndCmdlineInitialization xMax ks d su := by
  obtain ⟨hroom, hmax⟩ := h.room
  obtain ⟨order, horder, dirs, hlisted, hdirs⟩ := h.listed
  obtain ⟨line, hline, hword⟩ := h.limited
  obtain ⟨hdevice, hcopiedMap, hcopiedLimit⟩ := h.calls
  obtain ⟨hcount, hentries⟩ := entries_callsOf hroom hmax
  have hnonzero : fw.length ≠ 0 := fun hzero => h.nonempty (List.length_eq_zero_iff.mp hzero)
  rw [run_settings, Option.map_some, e820AndCmdlineInitialization, hlisted, Option.getD_some,
    enumerateDirByPath_eq hroom horder hdirs, Option.map_some, hcount, if_neg hnonzero, hline, hentries]
  simp only [hword.parse.1, if_neg h.limit, hdevice, hcopiedMap, hcopiedLimit, mmtestIoctl, if_true]

/-- After the start the driver holds the firmware's map in the order of its indices and the limit of the command
line, in whatever order the directories come; its RAM pages are the pages of the entries that say so. -/
theorem startup_settings (h : Boots su fw xMax v) (ks : KernelSort) (d : Globals) :
    (∃ d', run ks d (settings (fw.map FirmwareEntry.entry) v) = some d' ∧
      e820AndCmdlineInitialization xMax ks d su = some (0, d')) ∧
    ∀ pfn, RamPage (fw.map FirmwareEntry.entry) pfn ↔ ∃ e ∈ fw, samePrefix systemRam e.type = true ∧
      e.start ≤ pfn * pageSize ∧ (pfn + 1) * pageSize ≤ e.last + 1 :=
  ⟨⟨_, run_settings ks d _ v, (h.startup_eq ks d).symm⟩, ramPage_firmware fw⟩

end Starts

def lowEntry : FirmwareEntry :=
  ⟨0x0, 0x9ffff, "System RAM".toList, by decide, by decide, by decide, by decide, by decide, by decide⟩

def highEntry : FirmwareEntry :=
  ⟨0x100000, 0x7fffffff, "system ram".toList, by decide, by decide, by decide, by decide, by decide,
    by decide⟩

def dotDir : MapDir := ⟨['.'], false, none, none, none⟩

/-- The directory of the second entry comes first, and `mem=1M` is in the middle of the command line. -/
def swappedStartup : Startup where
  dirs := some [highEntry.dir 1, dotDir, lowEntry.dir 0]
  unwritten := ⟨[], 0⟩
  cmdline := some "ro mem=1M quiet".toList
  device := true
  copiedMap := true
  copiedLimit := true

theorem readsWord_swapped : ReadsWord "ro mem=1M quiet".toList (2 ^ 20) :=
  ⟨"ro ".toList, "1M".toList, " quiet".toList, by decide, Or.inr ⟨"ro".toList, by decide⟩,
    Or.inr ⟨"quiet".toList, by decide⟩, by decide, by decide, by decide, by decide, by decide, by decide⟩

theorem boots_swapped : Boots swappedStartup [lowEntry, highEntry] 128 (2 ^ 20) where
  nonempty := by simp
  room := by decide
  listed := ⟨([1, 0] : List (Fin 2)), by decide, _, rfl, rfl⟩
  limited := ⟨_, rfl, readsWord_swapped⟩
  limit := by decide
  calls := ⟨rfl, rfl, rfl⟩

theorem startup_settings_swapped :
    (∃ d', run insertionKernelSort (.fresh [])
        (settings ([lowEntry, highEntry].map FirmwareEntry.entry) (2 ^ 20)) = some d' ∧
      e820AndCmdlineInitialization 128 insertionKernelSort (.fresh []) swappedStartup = some (0, d')) ∧
    ∀ pfn, RamPage ([lowEntry, highEntry].map FirmwareEntry.entry) pfn ↔
      ∃ e ∈ [lowEntry, highEntry], samePrefix systemRam e.type = true ∧
        e.start ≤ pfn * pageSize ∧ (pfn + 1) * pageSize ≤ e.last + 1 :=
  startup_settings boots_swapped insertionKernelSort (.fresh [])

/-- The four pages of the small machine. -/
def smallEntry : FirmwareEntry :=
  ⟨0x100000, 0x103fff, "System RAM".toList, by decide, by decide, by decide, by decide, by decide, by decide⟩

def smallStartup : Startup where
  dirs := some [dotDir, smallEntry.dir 0]
  unwritten := ⟨[], 0⟩
  cmdline := some "mem=0x101000".toList
  device := true
  copiedMap := true
  copiedLimit := true

theorem boots_small : Boots smallStartup [smallEntry] 128 0x101000 where
  nonempty := by simp
  room := by decide
  listed := ⟨([0] : List (Fin 1)), by decide, _, rfl, rfl⟩
  limited := ⟨_, rfl, [], "0x101000".toList, [], by decide, Or.inl rfl, Or.inl rfl, by decide, by decide,
    by decide, by decide, by decide, by decide⟩
  limit := by decide
  calls := ⟨rfl, rfl, rfl⟩

end MoBoMemory.App
