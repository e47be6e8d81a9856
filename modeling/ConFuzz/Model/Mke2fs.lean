import ConFuzz.CLib.Numbers
import ConFuzz.Model.Ext2
import ConFuzz.Model.Feature
import Mathlib.Data.Rat.Defs

/-!
# The arguments of `mke2fs`

The part of `mke2fs` that reads its command line: the option loop of `PRS`, and
the readers of the arguments of `-J`, `-E` and `-O`. The variables that they
write are fields of `Prs`. `int` variables are integers in range, and the
fields of `fs_param` are naturals below their width.

A message on `stderr` after which the program goes on is left out. What ends the
program is a `Quit`, with its message.
-/

namespace ConFuzz.Mke2fs

open ConFuzz.CLib

/-- How the program ends early: `exit (1)`, or `usage ()`, after a message, or a division by
zero. -/
inductive Quit where
  | exit (message : String)
  | usage (message : String)
  | divByZero
  deriving DecidableEq, Repr

inductive Double where
  | num (value : ℚ)
  | inf (neg : Bool)
  | nan
  deriving DecidableEq, Repr

/-- What the readers ask their environment for. -/
structure Host where
  /-- `strtod`, with the text at `endptr`. -/
  strtod : Word → Double × Word
  /-- `blkid_find_dev_with_tag` of a text with `=`. -/
  devWithTag : Word → Option Word
  getuid : Nat
  getgid : Nat

/-- The fields of `fs_param`. -/
structure FsParam where
  logBlockSize : Nat := 0
  blocksPerGroup : Nat := 0
  revLevel : Nat := 1
  blocksCount : Nat := 0
  descSize : Nat := 0
  reservedGdtBlocks : Nat := 0
  mmpUpdateInterval : Nat := 0
  raidStride : Nat := 0
  raidStripeWidth : Nat := 0
  flags : Nat := 0
  features : E2p.Features := {}
  deriving DecidableEq, Repr

/-- The variables that the command line sets. -/
structure Prs where
  blocksize : Int := 0
  param : FsParam := {}
  cflag : Nat := 0
  clusterSize : Int := 0
  srcRootDir : Option Word := none
  directIo : Bool := false
  extendedOpts : Option Word := none
  errorsBehavior : Nat := 0
  force : Nat := 0
  flexBgSize : Nat := 0
  inodeRatio : Int := 0
  inodeSize : Int := 0
  journalSize : Int := 0
  journalDevice : Option Word := none
  journalLocationString : Option Word := none
  journalFlags : Nat := 0
  discard : Bool := true
  badBlocksFilename : Option Word := none
  volumeLabel : Option Word := none
  reservedRatio : Double := .num (-1)
  mountDir : Option Word := none
  noaction : Nat := 0
  numInodes : Nat := 0
  creatorOs : Option Word := none
  fsFeatures : Option Word := none
  quiet : Bool := false
  rOpt : Int := -1
  sOpt : Int := -1
  superOnly : Bool := false
  fsType : Option Word := none
  usageTypes : Option Word := none
  fsUuid : Option Word := none
  verbose : Bool := false
  showVersionOnly : Nat := 0
  undoFile : Option Word := none
  deriving DecidableEq, Repr

/-! ## Numbers -/

/-- The factor of a suffix of `parse_num_blocks2`, or the shift of a number of blocks. -/
def suffixShift (logBlockSize : Int) (num : Nat) : Word → Option Nat
  | [] => some num
  | [c] =>
    let kilo (n : Nat) : Nat :=
      if logBlockSize < 0 then n * 2 ^ 10 % 2 ^ 64 else n >>> logBlockSize.toNat
    if c = 'T' ∨ c = 't' then some (kilo (num * 2 ^ 30 % 2 ^ 64))
    else if c = 'G' ∨ c = 'g' then some (kilo (num * 2 ^ 20 % 2 ^ 64))
    else if c = 'M' ∨ c = 'm' then some (kilo (num * 2 ^ 10 % 2 ^ 64))
    else if c = 'K' ∨ c = 'k' then some (kilo num)
    else if c = 's' then
      some (if logBlockSize < 0 then num * 2 ^ 9 % 2 ^ 64 else num >>> (1 + logBlockSize.toNat))
    else none
  | _ => none

def parseNumBlocks2 (arg : Word) (logBlockSize : Int) : Nat :=
  (suffixShift logBlockSize (strtoul arg).1 (strtoul arg).2).getD 0

def countShifts : Nat → Nat → Nat → Nat
  | 0, _, l => l
  | fuel + 1, arg, l => if arg = 0 then l else countShifts fuel (arg >>> 1) (l + 1)

def intLog2 (arg : Nat) : Nat := countShifts 64 (arg >>> 1) 0

/-- A number that fills its argument. -/
def wholeNumber (optarg : Word) (message : String) : Except Quit Nat :=
  if (strtoul optarg).2 ≠ [] then .error (.exit message) else .ok (strtoul optarg).1

/-! ## `-J` -/

/-- `blkid_get_devname` of a token without a value. -/
def blkidGetDevname (H : Host) : Option Word → Option Word
  | none => none
  | some token => if '=' ∈ token then H.devWithTag token else some token

/-- The elements of a list of options. -/
def optionTokens (opts : Word) : List (Word × Option Word) :=
  (tokens (fun _ => false) (· == ',') opts).map splitArg

/-- One pass of the loop of `parse_journal_opts`, with `journal_usage`. -/
def journalOpt (H : Host) (s : Prs × Nat) : Word × Option Word → Prs × Nat
  | (token, arg) =>
    if token = "device".toList then
      match blkidGetDevname H arg with
      | none => ({ s.1 with journalDevice := none }, s.2 + 1)
      | some dev => ({ s.1 with journalDevice := some dev }, s.2)
    else if token = "size".toList then
      match arg with
      | none => (s.1, s.2 + 1)
      | some arg =>
        ({ s.1 with journalSize := toInt32 (strtoul arg).1 },
          if (strtoul arg).2 ≠ [] then s.2 + 1 else s.2)
    else if token = "location".toList then
      match arg with
      | none => (s.1, s.2 + 1)
      | some arg => ({ s.1 with journalLocationString := some arg }, s.2)
    else if token = "v1_superblock".toList then
      ({ s.1 with journalFlags := s.1.journalFlags ||| 1 }, s.2)
    else (s.1, s.2 + 1)

def journalUsage : String :=
  "\nBad journal options specified.\n\n" ++
  "Journal options are separated by commas, and may take an argument which\n" ++
  "\tis set off by an equals ('=') sign.\n\n" ++
  "Valid journal options are:\n" ++
  "\tsize=<journal size in megabytes>\n" ++
  "\tdevice=<journal device>\n" ++
  "\tlocation=<journal location>\n\n" ++
  "The journal size must be between 1024 and 10240000 filesystem blocks.\n\n"

def parseJournalOpts (H : Host) (opts : Word) (s : Prs) : Except Quit Prs :=
  let r := (optionTokens opts).foldl (journalOpt H) (s, 0)
  if r.2 ≠ 0 then .error (.exit journalUsage) else .ok r.1

/-! ## The option loop -/

/-- The bits of a number and of the number below have nothing in common. -/
def powerOfTwo (n : Nat) : Bool := n &&& (n - 1) = 0

def readBlocksize (s : Prs) (optarg : Word) : Except Quit Prs :=
  let blocksize := toInt32 (parseNumBlocks2 optarg (-1))
  if blocksize.natAbs < 1024 ∨ 65536 < blocksize.natAbs then
    .error (.exit ("invalid block size - " ++ String.ofList optarg))
  else if 0 < blocksize then
    .ok { s with blocksize := blocksize
                 param := { s.param with logBlockSize := intLog2 (blocksize.toNat >>> 10) } }
  else .ok { s with blocksize := blocksize }

def readClusterSize (s : Prs) (optarg : Word) : Except Quit Prs :=
  let clusterSize := toInt32 (parseNumBlocks2 optarg (-1))
  if clusterSize ≤ 1024 ∨ 2 ^ 29 < clusterSize then
    .error (.exit ("invalid cluster size - " ++ String.ofList optarg))
  else .ok { s with clusterSize := clusterSize }

def readErrors (s : Prs) (optarg : Word) : Except Quit Prs :=
  if optarg = "continue".toList then .ok { s with errorsBehavior := 1 }
  else if optarg = "remount-ro".toList then .ok { s with errorsBehavior := 2 }
  else if optarg = "panic".toList then .ok { s with errorsBehavior := 3 }
  else .error (.usage ("bad error behavior - " ++ String.ofList optarg))

def readBlocksPerGroup (s : Prs) (optarg : Word) : Except Quit Prs := do
  let n ← wholeNumber optarg "Illegal number for blocks per group"
  let blocksPerGroup := n % 2 ^ 32
  if blocksPerGroup % 8 ≠ 0 then
    throw (.exit "blocks per group must be multiple of 8")
  return { s with param := { s.param with blocksPerGroup := blocksPerGroup } }

def readFlexBgSize (s : Prs) (optarg : Word) : Except Quit Prs := do
  let flexBgSize ← wholeNumber optarg "Illegal number for flex_bg size"
  if flexBgSize < 1 ∨ powerOfTwo flexBgSize = false then
    throw (.exit "flex_bg size must be a power of 2")
  if 2 ^ 32 - 1 < flexBgSize then
    throw (.exit ("flex_bg size (" ++ toString flexBgSize ++
      ") must be less than or equal to 2^31"))
  return { s with flexBgSize := flexBgSize }

def readInodeRatio (s : Prs) (optarg : Word) : Except Quit Prs :=
  let inodeRatio := toInt32 (parseNumBlocks2 optarg (-1))
  if inodeRatio < 1024 ∨ 65536 * 1024 < inodeRatio then
    .error (.exit ("invalid inode ratio " ++ String.ofList optarg ++ " (min 1024/max 67108864)"))
  else .ok { s with inodeRatio := inodeRatio }

def readReservedRatio (H : Host) (s : Prs) (optarg : Word) : Except Quit Prs :=
  let r := H.strtod optarg
  let outside : Bool :=
    match r.1 with
    | .num q => q > 50 ∨ q < 0
    | .inf _ => true
    | .nan => false
  if r.2 ≠ [] ∨ outside then
    .error (.exit ("invalid reserved blocks percent - " ++ String.ofList optarg))
  else .ok { s with reservedRatio := r.1 }

def readRevision (s : Prs) (optarg : Word) : Except Quit Prs := do
  let n ← wholeNumber optarg ("bad revision level - " ++ String.ofList optarg)
  let rOpt := toInt32 n
  if 1 < rOpt then
    throw (.exit ("while trying to create revision " ++ toString rOpt))
  return { s with rOpt := rOpt, param := { s.param with revLevel := toU32 rOpt } }

def readInodeSize (s : Prs) (optarg : Word) : Except Quit Prs := do
  let n ← wholeNumber optarg ("invalid inode size - " ++ String.ofList optarg)
  return { s with inodeSize := toInt32 n }

def readNumInodes (s : Prs) (optarg : Word) : Except Quit Prs := do
  let n ← wholeNumber optarg ("bad num inodes - " ++ String.ofList optarg)
  return { s with numInodes := n }

def readFsType (s : Prs) (optarg : Word) : Except Quit Prs :=
  if s.fsType.isSome then .error (.exit "The -t option may only be used once")
  else .ok { s with fsType := some optarg }

def readUsageTypes (s : Prs) (optarg : Word) : Except Quit Prs :=
  if s.usageTypes.isSome then .error (.exit "The -T option may only be used once")
  else .ok { s with usageTypes := some optarg }

/-- `-O` is collected in one list. -/
def addFeatures : Option Word → Word → Word
  | none, optarg => optarg
  | some old, optarg => old ++ ',' :: optarg

/-- The options with an argument in the switch of the loop. -/
def readArgument (H : Host) (s : Prs) (optarg : Word) (c : Char) : Except Quit Prs :=
  if c = 'b' then readBlocksize s optarg
  else if c = 'C' then readClusterSize s optarg
  else if c = 'd' then .ok { s with srcRootDir := some optarg }
  else if c = 'R' ∨ c = 'E' then .ok { s with extendedOpts := some optarg }
  else if c = 'e' then readErrors s optarg
  else if c = 'g' then readBlocksPerGroup s optarg
  else if c = 'G' then readFlexBgSize s optarg
  else if c = 'i' then readInodeRatio s optarg
  else if c = 'I' then readInodeSize s optarg
  else if c = 'J' then parseJournalOpts H optarg s
  else if c = 'l' then .ok { s with badBlocksFilename := some optarg }
  else if c = 'L' then .ok { s with volumeLabel := some (optarg.take 16) }
  else if c = 'm' then readReservedRatio H s optarg
  else if c = 'M' then .ok { s with mountDir := some optarg }
  else if c = 'N' then readNumInodes s optarg
  else if c = 'o' then .ok { s with creatorOs := some optarg }
  else if c = 'O' then .ok { s with fsFeatures := some (addFeatures s.fsFeatures optarg) }
  else if c = 'r' then readRevision s optarg
  else if c = 's' then .ok { s with sOpt := atoi optarg }
  else if c = 't' then readFsType s optarg
  else if c = 'T' then readUsageTypes s optarg
  else if c = 'U' then .ok { s with fsUuid := some optarg }
  else if c = 'z' then .ok { s with undoFile := some optarg }
  else .error (.usage "")

/-- The options without argument. -/
def readFlag (s : Prs) (c : Char) : Except Quit Prs :=
  if c = 'c' then .ok { s with cflag := s.cflag + 1 }
  else if c = 'D' then .ok { s with directIo := true }
  else if c = 'F' then .ok { s with force := s.force + 1 }
  else if c = 'j' then
    .ok { s with journalSize := if s.journalSize = 0 then -1 else s.journalSize }
  else if c = 'K' then .ok { s with discard := false }
  else if c = 'n' then .ok { s with noaction := s.noaction + 1 }
  else if c = 'q' then .ok { s with quiet := true }
  else if c = 'S' then .ok { s with superOnly := true }
  else if c = 'v' then .ok { s with verbose := true }
  else if c = 'V' then .ok { s with showVersionOnly := s.showVersionOnly + 1 }
  else .error (.usage "")

/-- One pass of the option loop. -/
def prsOption (H : Host) (s : Prs) (o : Opt) : Except Quit Prs :=
  match o.optarg with
  | some optarg => readArgument H s optarg o.opt
  | none => readFlag s o.opt

def optstring : List Char := "b:cd:e:g:i:jl:m:no:qr:s:t:vC:DE:FG:I:J:KL:M:N:O:R:ST:U:Vz:".toList

def prsStart (programName : Word) (beforeLinux22 : Bool) : Prs where
  param := { revLevel := if beforeLinux22 then 0 else 1 }
  journalSize :=
    if programName = "mkfs.ext3".toList ∨ programName = "mke3fs".toList then -1 else 0

/-- `PRS` up to the device name: the variables, and the words behind the options. -/
def prs (H : Host) (programName : Word) (beforeLinux22 : Bool) (argv : List Word) :
    Except Quit (Prs × List Word) := do
  let r := getopt optstring none argv
  let s ← r.1.foldlM (prsOption H) (prsStart programName beforeLinux22)
  if r.2 = [] ∧ s.showVersionOnly = 0 then
    throw (.usage "")
  return (s, r.2)

end ConFuzz.Mke2fs
