import ConFuzz.CLib.Numbers

/-!
# Names of features

The three words of features of a superblock, and the functions of `libe2p` on
them: `e2p_feature2string` and `e2p_string2feature` between a bit and its name,
`print_features` for the line of `dumpe2fs`, and `e2p_edit_feature2` for a list
of features to set and clear.
-/

namespace ConFuzz.E2p

open ConFuzz.CLib

/-- Which word a feature is in. -/
inductive Compat where
  | compat
  | incompat
  | roIncompat
  deriving DecidableEq, Repr

structure Features where
  compat : BitVec 32 := 0
  incompat : BitVec 32 := 0
  roCompat : BitVec 32 := 0
  deriving DecidableEq, Repr

namespace Features

def get (F : Features) : Compat → BitVec 32
  | .compat => F.compat
  | .incompat => F.incompat
  | .roIncompat => F.roCompat

def set (F : Features) (word : BitVec 32) : Compat → Features
  | .compat => { F with compat := word }
  | .incompat => { F with incompat := word }
  | .roIncompat => { F with roCompat := word }

end Features

def featureList : List (Compat × BitVec 32 × String) :=
  [(.compat, 0x0001, "dir_prealloc"),
   (.compat, 0x0004, "has_journal"),
   (.compat, 0x0002, "imagic_inodes"),
   (.compat, 0x0008, "ext_attr"),
   (.compat, 0x0020, "dir_index"),
   (.compat, 0x0010, "resize_inode"),
   (.compat, 0x0040, "lazy_bg"),
   (.compat, 0x0100, "snapshot_bitmap"),
   (.compat, 0x0200, "sparse_super2"),
   (.roIncompat, 0x0001, "sparse_super"),
   (.roIncompat, 0x0002, "large_file"),
   (.roIncompat, 0x0008, "huge_file"),
   (.roIncompat, 0x0010, "uninit_bg"),
   (.roIncompat, 0x0010, "uninit_groups"),
   (.roIncompat, 0x0020, "dir_nlink"),
   (.roIncompat, 0x0040, "extra_isize"),
   (.roIncompat, 0x0100, "quota"),
   (.roIncompat, 0x0200, "bigalloc"),
   (.roIncompat, 0x0400, "metadata_csum"),
   (.roIncompat, 0x0800, "replica"),
   (.roIncompat, 0x1000, "read-only"),
   (.roIncompat, 0x2000, "project"),
   (.incompat, 0x0001, "compression"),
   (.incompat, 0x0002, "filetype"),
   (.incompat, 0x0004, "needs_recovery"),
   (.incompat, 0x0008, "journal_dev"),
   (.incompat, 0x0040, "extent"),
   (.incompat, 0x0040, "extents"),
   (.incompat, 0x0010, "meta_bg"),
   (.incompat, 0x0080, "64bit"),
   (.incompat, 0x0100, "mmp"),
   (.incompat, 0x0200, "flex_bg"),
   (.incompat, 0x0400, "ea_inode"),
   (.incompat, 0x1000, "dirdata"),
   (.incompat, 0x2000, "metadata_csum_seed"),
   (.incompat, 0x4000, "large_dir"),
   (.incompat, 0x8000, "inline_data"),
   (.incompat, 0x10000, "encrypt")]

/-! ## One feature -/

/-- The loop that finds the number of the highest bit. -/
def bitNumber : Nat → BitVec 32 → Nat → Nat
  | 0, _, fnum => fnum
  | fuel + 1, mask, fnum => if mask >>> 1 = 0 then fnum else bitNumber fuel (mask >>> 1) (fnum + 1)

/-- The letter of a word. -/
def Compat.fchar : Compat → Char
  | .compat => 'C'
  | .incompat => 'I'
  | .roIncompat => 'R'

def feature2string (type : Compat) (mask : BitVec 32) : Word :=
  match featureList.find? fun f => f.1 = type ∧ f.2.1 = mask with
  | some f => f.2.2.toList
  | none => "FEATURE_".toList ++ type.fchar :: (toString (bitNumber 32 mask 0)).toList

/-- `strcasecmp` is 0. -/
def sameIgnoringCase (a b : Word) : Bool := a.map Char.toLower = b.map Char.toLower

/-- `e2p_string2feature`; `none` is the result 1. -/
def string2feature (string : Word) : Option (Compat × BitVec 32) :=
  match featureList.find? fun f => sameIgnoringCase string f.2.2.toList with
  | some f => some (f.1, f.2.1)
  | none =>
    if ¬ sameIgnoringCase (string.take 8) "FEATURE_".toList then none
    else
      match string.drop 8 with
      | [] => none
      | letter :: digits =>
        let type? : Option Compat :=
          if letter = 'c' ∨ letter = 'C' then some .compat
          else if letter = 'i' ∨ letter = 'I' then some .incompat
          else if letter = 'r' ∨ letter = 'R' then some .roIncompat
          else none
        match type? with
        | none => none
        | some type =>
          let num := toInt32 (strtol digits).1
          if digits = [] then none
          else if 31 < num ∨ num < 0 then none
          else if (strtol digits).2 ≠ [] then none
          else some (type, 1#32 <<< num.toNat)

/-! ## The line of `dumpe2fs` -/

/-- The features of a word, from its lowest bit. -/
def printWord (type : Compat) (word : BitVec 32) : List Word :=
  ((List.range 32).filter fun j => word &&& 1#32 <<< j ≠ 0).map fun j =>
    feature2string type (1#32 <<< j)

/-- The features that `print_features` prints. -/
def printed (F : Features) : List Word :=
  printWord .compat F.compat ++ printWord .incompat F.incompat ++ printWord .roIncompat F.roCompat

/-- The text of `print_features` behind its label. -/
def printFeatures (F : Features) : Word :=
  if printed F = [] then " (none)\n".toList
  else (printed F).flatMap (fun name => ' ' :: name) ++ ['\n']

/-! ## Lists -/

/-- The constants `E2P_FEATURE_COMPAT`, `E2P_FEATURE_INCOMPAT` and `E2P_FEATURE_RO_INCOMPAT`. -/
def Compat.number : Compat → Nat
  | .compat => 0
  | .incompat => 1
  | .roIncompat => 2

/-- The words of features, the result, `type_err` and `mask_err`. -/
structure Edit where
  features : Features
  rc : Nat := 0
  typeErr : Nat := 0
  maskErr : BitVec 32 := 0
  deriving DecidableEq, Repr

/-- The sign of an element, and its name. -/
def featureSign : Word → Bool × Word
  | '-' :: cp => (true, cp)
  | '^' :: cp => (true, cp)
  | '+' :: cp => (false, cp)
  | cp => (false, cp)

/-- The array is there and does not have the feature. -/
def refuses (ok : Option Features) (type : Compat) (mask : BitVec 32) : Bool :=
  match ok with
  | none => false
  | some G => G.get type &&& mask = 0

/-- One pass of the loop of `e2p_edit_feature2`. -/
def editWord (ok clearOk : Option Features) (F : Features) (cp : Word) : Edit :=
  if sameIgnoringCase cp "none".toList ∨ sameIgnoringCase cp "clear".toList then { features := {} }
  else
    let sign := featureSign cp
    match string2feature sign.2 with
    | none => { features := F, rc := 1 }
    | some (type, mask) =>
      if sign.1 then
        if refuses clearOk type mask then
          { features := F, rc := 1, typeErr := type.number ||| 0x80, maskErr := mask }
        else { features := F.set (F.get type &&& ~~~mask) type }
      else
        if refuses ok type mask then
          { features := F, rc := 1, typeErr := type.number, maskErr := mask }
        else { features := F.set (F.get type ||| mask) type }

/-- The loop: it stops at the first error. -/
def editWords (ok clearOk : Option Features) : Features → List Word → Edit
  | F, [] => { features := F }
  | F, cp :: next =>
    let e := editWord ok clearOk F cp
    if e.rc ≠ 0 then e else editWords ok clearOk e.features next

/-- Where an element ends. -/
def endsFeature (c : Char) : Bool := isSpace c || c == ','

def editFeature2 (str : Word) (F : Features) (ok clearOk : Option Features) : Edit :=
  editWords ok (clearOk.or ok) F (tokens isSpace endsFeature str)

def editFeature (str : Word) (F : Features) (ok : Option Features) : Edit :=
  editFeature2 str F ok none

end ConFuzz.E2p
