import ConFuzz.Model.Mke2fs

/-!
# The lists of `-E` and `-O`

`parse_extended_opts` counts what it cannot read and ends the program behind its
loop; only an on-line resize area on a revision 0 file system ends it at once.
`report` has the lines that it wrote about the elements it counted.

`e2p_edit_feature2` sets and clears the bits of three words of features and stops
at the first name that it does not know or may not change.
-/

namespace ConFuzz.Mke2fs

open ConFuzz.CLib

/-! ## `-E` -/

/-- The variables that `parse_extended_opts` sets. -/
structure Extended where
  param : FsParam
  offset : Nat := 0
  numBackups : Int := 2
  packedMetaBlocks : Int := 0
  journalLocation : Nat := 2 ^ 64 - 1
  lazyItableInit : Int := 0
  journalFlags : Nat := 0
  rootUid : Nat := 0
  rootGid : Nat := 0
  discard : Bool := true
  quotatypeBits : BitVec 32 := 3
  androidSparseFile : Bool := false
  rUsage : Nat := 0
  badopt : Option Word := none
  report : List String := []
  deriving DecidableEq, Repr

/-- An element with a bad argument. -/
def Extended.fault (e : Extended) (message : String) : Extended :=
  { e with rUsage := e.rUsage + 1, report := e.report ++ [message] }

/-- An element that is unknown or has no argument. -/
def Extended.reject (e : Extended) (token : Word) : Extended :=
  { e with rUsage := e.rUsage + 1, badopt := some token }

/-- An element with a number. The variable is set before the rest of the argument is looked at. -/
def numberOpt (e : Extended) (token : Word) (arg : Option Word) (set : Nat → Extended)
    (message : String) : Extended :=
  match arg with
  | none => e.reject token
  | some arg =>
    if (strtoul arg).2 ≠ [] then (set (strtoul arg).1).fault (message ++ String.ofList arg)
    else set (strtoul arg).1

namespace FsParam

def blockSize (p : FsParam) : Nat := 1024 * 2 ^ p.logBlockSize % 2 ^ 32

def has64bit (p : FsParam) : Bool := p.features.incompat &&& 0x80 ≠ 0

/-- `EXT2_DESC_PER_BLOCK`, and 0 where it divides by zero. -/
def descPerBlock (p : FsParam) : Nat := p.blockSize / (if p.has64bit then p.descSize else 32)

/-- The blocks of a group, or as many as a block has bits. -/
def bpg (p : FsParam) : Nat :=
  if p.blocksPerGroup = 0 then p.blockSize * 8 % 2 ^ 32 else p.blocksPerGroup

/-- The number of reserved descriptor blocks for a maximal size, where no divisor is zero. -/
def reservedFor (p : FsParam) (resize : Nat) : Int :=
  let bpg := p.bpg
  let groupDescCount := Super.divCeil p.blocksCount bpg % 2 ^ 32
  let descBlocks := (groupDescCount + p.descPerBlock - 1) / p.descPerBlock
  let rsvGroups := Super.divCeil resize bpg
  let rsvGdb := toInt32 ((Super.divCeil (rsvGroups % 2 ^ 32) p.descPerBlock : Nat) - descBlocks)
  if (p.blockSize / 4 : Nat) < rsvGdb then (p.blockSize / 4 : Nat) else rsvGdb

end FsParam

def resizeOpt (e : Extended) (token : Word) : Option Word → Except Quit Extended
  | none => .ok (e.reject token)
  | some arg =>
    let resize := parseNumBlocks2 arg e.param.logBlockSize
    if resize = 0 then .ok (e.fault ("Invalid resize parameter: " ++ String.ofList arg))
    else if resize ≤ e.param.blocksCount then
      .ok (e.fault "The resize maximum must be greater than the filesystem size.")
    -- a descriptor size of 0 is a divisor, and so are the number of descriptors in a block,
    -- which is 0 for larger ones, and the blocks of a group
    else if e.param.descPerBlock = 0 ∨ e.param.bpg = 0 then .error .divByZero
    else if 0 < e.param.reservedFor resize then
      if e.param.revLevel = 0 then
        .error (.exit "On-line resizing not supported with revision 0 filesystems")
      else
        .ok { e with param := { e.param with
          features := e.param.features.set (e.param.features.compat ||| 0x10) .compat
          reservedGdtBlocks := toU32 (e.param.reservedFor resize) % 2 ^ 16 } }
    else .ok e

def descSizeOpt (e : Extended) (token : Word) (arg : Option Word) : Extended :=
  if e.param.has64bit = false then e.fault (String.ofList token ++ " requires '-O 64bit'")
  else if e.param.reservedGdtBlocks ≠ 0 then
    e.fault ("'" ++ String.ofList token ++ "' must be before 'resize=" ++
      toString e.param.reservedGdtBlocks ++ "'")
  else
    match arg with
    | none => e.reject token
    | some arg =>
      let descSize := toU32 (strtoul arg).1
      if (strtoul arg).2 ≠ [] ∨ powerOfTwo descSize = false then
        e.fault ("Invalid desc_size: '" ++ String.ofList arg ++ "'")
      else { e with param := { e.param with descSize := descSize % 2 ^ 16 } }

def numBackupsOpt (e : Extended) (token : Word) : Option Word → Extended
  | none => e.reject token
  | some arg =>
    let e' := { e with numBackups := toInt32 (strtoul arg).1 }
    if (strtoul arg).2 ≠ [] ∨ 2 < e'.numBackups then
      e'.fault ("Invalid # of backup superblocks: " ++ String.ofList arg)
    else e'

def rootOwnerOpt (H : Host) (e : Extended) : Option Word → Extended
  | none => { e with rootUid := H.getuid, rootGid := H.getgid }
  | some arg =>
    let message := "Invalid root_owner: '" ++ String.ofList arg ++ "'"
    let e' := { e with rootUid := (strtoul arg).1 % 2 ^ 32 }
    match (strtoul arg).2 with
    | ':' :: p =>
      let e'' := { e' with rootGid := (strtoul p).1 % 2 ^ 32 }
      if (strtoul p).2 ≠ [] then e''.fault message else e''
    | _ => e'.fault message

/-- The tokens that `parse_quota_types` sees: the first one keeps the separators in front of it,
since `token` starts at the buffer and not at the result of `strtok_r`. -/
def quotaTokens (s : Word) : List Word :=
  let delim (c : Char) : Bool := c == ':' || c == ','
  let lead := s.takeWhile delim
  let rest := s.dropWhile delim
  let first := lead ++ rest.takeWhile fun c => !delim c
  if first = [] then []
  else first :: ((rest.dropWhile fun c => !delim c).splitOnP delim).filter (· ≠ [])

/-- The bit of a quota type. -/
def quotaBit (p : Word) : Option (BitVec 32) :=
  if p = "usr".toList ∨ p = "usrquota".toList then some 1
  else if p = "grp".toList ∨ p = "grpquota".toList then some 2
  else if p = "prj".toList ∨ p = "prjquota".toList then some 4
  else none

/-- One pass of the loop of `parse_quota_types`; an error has the token. -/
def quotaType (bits : BitVec 32) : Word → Except Word (BitVec 32)
  | '^' :: p =>
    match quotaBit p with
    | none => .error ('^' :: p)
    | some bit => .ok (bits &&& ~~~bit)
  | p =>
    match quotaBit p with
    | none => .error p
    | some bit => .ok (bits ||| bit)

/-- `parse_quota_types` on cleared bits. -/
def parseQuotaTypes (s : Word) : Except Word (BitVec 32) := (quotaTokens s).foldlM quotaType 0

/-- The element `quotatype`. The bits are cleared first. -/
def quotatypeOpt (e : Extended) (token : Word) : Option Word → Extended
  | none => e.reject token
  | some arg =>
    match parseQuotaTypes arg with
    | .error errtok =>
      { e with
        quotatypeBits := 0
        rUsage := e.rUsage + 1
        badopt := some token
        report := e.report ++ ["Failed to parse quota type at " ++ String.ofList errtok] }
    | .ok bits => { e with quotatypeBits := bits }

/-- One pass of the loop of `parse_extended_opts`. -/
def extendedOpt (H : Host) (e : Extended) : Word × Option Word → Except Quit Extended
  | (token, arg) =>
    if token = "desc-size".toList ∨ token = "desc_size".toList then .ok (descSizeOpt e token arg)
    else if token = "offset".toList then
      .ok (numberOpt e token arg (fun n => { e with offset := n }) "Invalid offset: ")
    else if token = "mmp_update_interval".toList then
      .ok (numberOpt e token arg
        (fun n => { e with param := { e.param with mmpUpdateInterval := n % 2 ^ 16 } })
        "Invalid mmp_update_interval: ")
    else if token = "num_backup_sb".toList then .ok (numBackupsOpt e token arg)
    else if token = "packed_meta_blocks".toList then
      let packed : Int := (arg.map fun arg => toInt32 (strtoul arg).1).getD 1
      .ok { e with
        packedMetaBlocks := packed
        journalLocation := if packed ≠ 0 then 0 else e.journalLocation }
    else if token = "stride".toList then
      .ok (numberOpt e token arg
        (fun n => { e with param := { e.param with raidStride := n % 2 ^ 16 } })
        "Invalid stride parameter: ")
    else if token = "stripe-width".toList ∨ token = "stripe_width".toList then
      .ok (numberOpt e token arg
        (fun n => { e with param := { e.param with raidStripeWidth := n % 2 ^ 32 } })
        "Invalid stripe-width parameter: ")
    else if token = "resize".toList then resizeOpt e token arg
    else if token = "test_fs".toList then
      .ok { e with param := { e.param with flags := e.param.flags ||| 4 } }
    else if token = "lazy_itable_init".toList then
      .ok { e with lazyItableInit := (arg.map fun arg => toInt32 (strtoul arg).1).getD 1 }
    else if token = "lazy_journal_init".toList then
      let lazy : Bool := (arg.map fun arg => decide ((strtoul arg).1 ≠ 0)).getD true
      .ok { e with journalFlags := e.journalFlags ||| (if lazy then 2 else 0) }
    else if token = "root_owner".toList then .ok (rootOwnerOpt H e arg)
    else if token = "discard".toList then .ok { e with discard := true }
    else if token = "nodiscard".toList then .ok { e with discard := false }
    else if token = "quotatype".toList then .ok (quotatypeOpt e token arg)
    else if token = "android_sparse".toList then .ok { e with androidSparseFile := true }
    else .ok (e.reject token)

def extendedUsage (badopt : Word) : String :=
  "\nBad option(s) specified: " ++ String.ofList badopt ++ "\n\n" ++
  "Extended options are separated by commas, and may take an argument which\n" ++
  "\tis set off by an equals ('=') sign.\n\n" ++
  "Valid extended options are:\n" ++
  "\tmmp_update_interval=<interval>\n" ++
  "\tnum_backup_sb=<0|1|2>\n" ++
  "\tstride=<RAID per-disk data chunk in blocks>\n" ++
  "\tstripe-width=<RAID stride * data disks in blocks>\n" ++
  "\toffset=<offset to create the file system>\n" ++
  "\tresize=<resize maximum size in blocks>\n" ++
  "\tpacked_meta_blocks=<0 to disable, 1 to enable>\n" ++
  "\tlazy_itable_init=<0 to disable, 1 to enable>\n" ++
  "\tlazy_journal_init=<0 to disable, 1 to enable>\n" ++
  "\troot_owner=<uid of root dir>:<gid of root dir>\n" ++
  "\ttest_fs\n" ++
  "\tdiscard\n" ++
  "\tnodiscard\n" ++
  "\tquotatype=<quota type(s) to be enabled>\n\n"

/-- The end of `parse_extended_opts`. -/
def Extended.finish (e : Extended) : Except Quit Extended :=
  if e.rUsage ≠ 0 then .error (.exit (extendedUsage (e.badopt.getD []))) else .ok e

/-- `parse_extended_opts`. Its counter and its lines start anew. -/
def parseExtendedOpts (H : Host) (opts : Word) (e : Extended) : Except Quit Extended := do
  let e' ← (optionTokens opts).foldlM (extendedOpt H)
    { e with rUsage := 0, badopt := none, report := [] }
  e'.finish

/-! ## `-O` -/

def okFeatures : E2p.Features where
  compat := 0x4 ||| 0x10 ||| 0x20 ||| 0x8 ||| 0x200
  incompat := 0x2 ||| 0x40 ||| 0x8 ||| 0x10 ||| 0x200 ||| 0x400 ||| 0x100 ||| 0x80 ||| 0x8000 |||
    0x10000 ||| 0x2000 ||| 0x4000
  roCompat := 0x2 ||| 0x8 ||| 0x20 ||| 0x40 ||| 0x1 ||| 0x10 ||| 0x200 ||| 0x100 ||| 0x400 |||
    0x2000

/-- `edit_feature`; no list changes nothing. -/
def editFeature : Option Word → E2p.Features → Except Quit E2p.Features
  | none, F => .ok F
  | some str, F =>
    let e := E2p.editFeature str F (some okFeatures)
    if e.rc ≠ 0 then .error (.exit ("Invalid filesystem option set: " ++ String.ofList str))
    else .ok e.features

end ConFuzz.Mke2fs
