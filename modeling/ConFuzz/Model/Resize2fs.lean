import ConFuzz.Model.Mke2fs

/-!
# The decisions of `resize2fs`

`main` of `resize2fs` from its command line to the call that changes the file
system. What it reads of the opened file system and of the device is a `Volume`;
its calls of the system succeed. Writing one byte behind the end of a plain file
is `canExtend`. The result is an exit with its reason, or the resize with its
size and flags.
-/

namespace ConFuzz.Resize2fs

open ConFuzz.CLib

/-! ## The option loop -/

/-- The variables that the command line sets. -/
structure Args where
  flags : BitVec 32 := 0
  flush : Bool := false
  force : Bool := false
  forceMinSize : Bool := false
  printMinSize : Bool := false
  useStride : Int := -1
  undoFile : Option Word := none
  deriving DecidableEq, Repr

def percentComplete : BitVec 32 := 0x100

def enable64bit : BitVec 32 := 0x400

def disable64bit : BitVec 32 := 0x800

/-- Why the program ends without a resize, with what it writes about it. -/
inductive Reason where
  | checkFirst (device : Word)
  | unsupported (device : Word)
  | minimumSize (blocks : Nat)
  | invalidSize (text : Word)
  | above32Bits
  | belowMinimum (blocks : Nat)
  | invalidStride
  | deviceTooSmall (blocks kilobytes newSize : Nat)
  | setAndUnset
  | featureTooLarge
  | featureMounted
  | needsExtents
  | nothingToDo (blocks kilobytes : Nat)
  | already64bit
  | already32bit
  | bigalloc
  deriving DecidableEq, Repr

inductive Outcome where
  | usage
  | exit (reason : Reason)
  /-- `resize_fs`, or `online_resize_fs`, with the stride of the file system. -/
  | resize (online : Bool) (newSize : Nat) (flags : BitVec 32) (stride : Option Int)
  deriving DecidableEq, Repr

/-- The options with an argument in the switch of the loop. -/
def readArgument (a : Args) (optarg : Word) (c : Char) : Except Outcome Args :=
  if c = 'd' then .ok { a with flags := a.flags ||| BitVec.ofInt 32 (atoi optarg) }
  else if c = 'S' then .ok { a with useStride := atoi optarg }
  else if c = 'z' then .ok { a with undoFile := some optarg }
  else .error .usage

/-- The options without argument; `-h` asks for the usage. -/
def readFlag (a : Args) (c : Char) : Except Outcome Args :=
  if c = 'f' then .ok { a with force := true }
  else if c = 'F' then .ok { a with flush := true }
  else if c = 'M' then .ok { a with forceMinSize := true }
  else if c = 'P' then .ok { a with printMinSize := true }
  else if c = 'p' then .ok { a with flags := a.flags ||| percentComplete }
  else if c = 'b' then .ok { a with flags := a.flags ||| enable64bit }
  else if c = 's' then .ok { a with flags := a.flags ||| disable64bit }
  else .error .usage

/-- One pass of the option loop. -/
def readOption (a : Args) (o : Opt) : Except Outcome Args :=
  match o.optarg with
  | some optarg => readArgument a optarg o.opt
  | none => readFlag a o.opt

def optstring : List Char := "d:fFhMPpS:bsz:".toList

/-- The variables, the device without its `io_options`, and the text of the new size. -/
def readArgs (argv : List Word) : Except Outcome (Args × Word × Option Word) := do
  let r := getopt optstring none argv
  let a ← r.1.foldlM readOption {}
  match r.2 with
  | [device] => return (a, device.takeWhile (· ≠ '?'), none)
  | [device, newSizeStr] => return (a, device.takeWhile (· ≠ '?'), some newSizeStr)
  | _ => throw .usage

/-! ## The file system and its device -/

/-- What the program reads of the file system and its device. -/
structure Volume where
  mounted : Bool
  errorFs : Bool
  validFs : Bool
  lastcheck : Nat
  mtime : Nat
  freeBlocksLo : UInt32
  freeBlocksHi : UInt32
  blocksCountLo : UInt32
  blocksCountHi : UInt32
  freeInodesCount : Nat
  inodesCount : Nat
  unsupportedCompat : Bool
  bit64 : Bool
  extents : Bool
  bigalloc : Bool
  logBlockSize : Nat
  blocksPerGroup : Nat
  /-- `calculate_minimum_resize_size`, for the flags. -/
  minSize : BitVec 32 → Nat
  /-- The size of the device in blocks. -/
  maxSize : Nat
  sysPageSize : Nat
  plainFile : Bool
  stSize : Nat
  canExtend : Bool

namespace Volume

def blocksize (v : Volume) : Nat := 1024 * 2 ^ v.logBlockSize

/-- A count in two halves; the upper one counts with the `64bit` feature only. -/
def halves (v : Volume) (lo hi : UInt32) : Nat :=
  if v.bit64 then lo.toNat ||| hi.toNat <<< 32 else lo.toNat

def blocksCount (v : Volume) : Nat := v.halves v.blocksCountLo v.blocksCountHi

def freeBlocksCount (v : Volume) : Nat := v.halves v.freeBlocksLo v.freeBlocksHi

/-- `checkit`: the file system has to be checked first. -/
def checkit (v : Volume) (a : Args) : Bool :=
  v.errorFs || !v.validFs || (decide (v.lastcheck < v.mtime) && !a.printMinSize) ||
    decide (v.blocksCount < v.freeBlocksCount) || decide (v.inodesCount < v.freeInodesCount)

/-- The size of the device, rounded down to whole pages. -/
def roundedSize (v : Volume) : Nat :=
  if v.blocksize < v.sysPageSize then
    v.maxSize - (v.maxSize &&& (v.sysPageSize / v.blocksize - 1))
  else v.maxSize

end Volume

/-! ## The decisions -/

/-- The size that the arguments ask for. -/
def chooseSize (v : Volume) (a : Args) (newSizeStr : Option Word) : Except Outcome Nat :=
  if a.forceMinSize then .ok (v.minSize a.flags)
  else
    match newSizeStr with
    | some text =>
      let newSize := Mke2fs.parseNumBlocks2 text v.logBlockSize
      if newSize = 0 then .error (.exit (.invalidSize text)) else .ok newSize
    | none => .ok v.roundedSize

def Args.enables (a : Args) : Bool := a.flags &&& enable64bit ≠ 0

def Args.disables (a : Args) : Bool := a.flags &&& disable64bit ≠ 0

/-- A change of the feature keeps the size, and without the feature it fits 32 bits. -/
def limitSize (v : Volume) (a : Args) (newSize : Nat) : Except Outcome Nat :=
  let newSize := if a.disables || a.enables then v.blocksCount else newSize
  if v.bit64 = false ∧ newSize = 2 ^ 32 then .ok (newSize - 1)
  else if v.bit64 = false ∧ 2 ^ 32 < newSize then .error (.exit .above32Bits)
  else .ok newSize

/-- The stride of the file system; `none` if it is determined from its groups. -/
def chooseStride (v : Volume) (a : Args) : Except Outcome (Option Int) :=
  if 0 ≤ a.useStride then
    if toInt32 v.blocksPerGroup ≤ a.useStride then .error (.exit .invalidStride)
    else .ok (some a.useStride)
  else .ok none

/-- The size of the device, after a plain file was extended. -/
def extendedSize (v : Volume) (newSize : Nat) : Nat :=
  let newFileSize := newSize * v.blocksize % 2 ^ 64
  if newFileSize < 2 ^ 63 ∧ v.stSize < newFileSize ∧ v.plainFile ∧ v.canExtend then newSize
  else v.maxSize

def leaveIf (c : Prop) [Decidable c] (reason : Reason) : Except Outcome Unit :=
  if c then .error (.exit reason) else .ok ()

/-- The checks of a change of the `64bit` feature, or of the size. -/
def checkChange (v : Volume) (a : Args) (newSize : Nat) : Except Outcome Unit := do
  leaveIf (a.disables ∧ a.enables) .setAndUnset
  if a.disables || a.enables then
    leaveIf (2 ^ 32 ≤ newSize) .featureTooLarge
    leaveIf v.mounted .featureMounted
    leaveIf (a.enables ∧ v.extents = false) .needsExtents
  else
    leaveIf (newSize = v.blocksCount) (.nothingToDo newSize (v.blocksize / 1024))
  leaveIf (a.enables ∧ v.bit64) .already64bit
  leaveIf (a.disables ∧ v.bit64 = false) .already32bit

/-- `main` behind the option loop; `bigalloc_check` is its last check. -/
def decideResize (v : Volume) (a : Args) (device : Word) (newSizeStr : Option Word) :
    Except Outcome Outcome := do
  leaveIf (a.force = false ∧ v.mounted = false ∧ v.checkit a) (.checkFirst device)
  leaveIf v.unsupportedCompat (.unsupported device)
  leaveIf a.printMinSize (.minimumSize (v.minSize a.flags))
  let newSize ← chooseSize v a newSizeStr
  let newSize ← limitSize v a newSize
  leaveIf (a.force = false ∧ newSize < v.minSize a.flags) (.belowMinimum (v.minSize a.flags))
  let stride ← chooseStride v a
  leaveIf (a.force = false ∧ extendedSize v newSize < newSize)
    (.deviceTooSmall (extendedSize v newSize) (v.blocksize / 1024) newSize)
  checkChange v a newSize
  leaveIf (a.force = false ∧ v.bigalloc) .bigalloc
  return .resize v.mounted newSize a.flags stride

def run (v : Volume) (argv : List Word) : Outcome :=
  match (do
    let (a, device, newSizeStr) ← readArgs argv
    decideResize v a device newSizeStr) with
  | .ok outcome => outcome
  | .error outcome => outcome

end ConFuzz.Resize2fs
