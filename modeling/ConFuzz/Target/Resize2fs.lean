import ConFuzz.Target.Options

/-!
# `resize2fs` runs a configuration

For every command line, `resize2fs` starts a resize only to a size that is
`Sound`: not below the minimum and not beyond the device unless it is forced,
with 32 bits for a file system without `64bit`, and a change of that feature
only in the direction that is open (`decideResize_sound`).

`settings ir` are the variables that a configuration of the shipped table stands
for; the option loop reads every command of a configuration as its settings
(`readArgs_command`).
-/

namespace ConFuzz.Resize2fs

open ConFuzz.CLib ConFuzz.Config

/-! ## When a resize starts -/

section

variable {c : Prop} [Decidable c] {reason : Reason} {v : Volume} {a : Args} {device : Word}
  {newSizeStr : Option Word} {outcome : Outcome} {n m : Nat} {u : Unit}

theorem Volume.blocksCount_lt (h : v.bit64 = false) : v.blocksCount < 2 ^ 32 := by
  rw [blocksCount, halves, h]
  exact v.blocksCountLo.toNat_lt

theorem limitSize_spec (h : limitSize v a m = .ok n) :
    (v.bit64 = false → n < 2 ^ 32) ∧ ((a.disables || a.enables) = true → n = v.blocksCount) := by
  unfold limitSize at h
  by_cases hc : (a.disables || a.enables) = true
  · simp only [hc, if_true] at h
    have hcount := @Volume.blocksCount_lt v
    split at h
    · next hv => exact absurd hv.2 (Nat.ne_of_lt (hcount hv.1))
    · split at h
      · cases h
      · next hv =>
        obtain rfl := Except.ok.inj h
        exact ⟨hcount, fun _ => rfl⟩
  · simp only [hc, Bool.false_eq_true, if_false] at h
    refine ⟨fun hv => ?_, fun h => absurd h hc⟩
    simp only [hv, true_and] at h
    split at h
    · obtain rfl := Except.ok.inj h
      omega
    · split at h
      · cases h
      · obtain rfl := Except.ok.inj h
        omega

/-- The size that the arguments choose, within its limits. -/
def Chosen (v : Volume) (a : Args) (newSizeStr : Option Word) (n : Nat) : Prop :=
  ∃ m, chooseSize v a newSizeStr = .ok m ∧ limitSize v a m = .ok n

theorem Chosen.spec (h : Chosen v a newSizeStr n) :
    (v.bit64 = false → n < 2 ^ 32) ∧ ((a.disables || a.enables) = true → n = v.blocksCount) := by
  obtain ⟨m, -, hn⟩ := h
  exact limitSize_spec hn

/-- What is true when the program gives a reason. -/
def Justified (v : Volume) (a : Args) (device : Word) (newSizeStr : Option Word) : Reason → Prop
  | .checkFirst text => text = device ∧ a.force = false ∧ v.mounted = false ∧ v.checkit a = true
  | .unsupported text => text = device ∧ v.unsupportedCompat = true
  | .minimumSize blocks => a.printMinSize = true ∧ blocks = v.minSize a.flags
  | .invalidSize text => newSizeStr = some text ∧ a.forceMinSize = false ∧
      Mke2fs.parseNumBlocks2 text v.logBlockSize = 0
  | .above32Bits => v.bit64 = false ∧ a.enables = false ∧ a.disables = false ∧
      ∃ m, chooseSize v a newSizeStr = .ok m ∧ 2 ^ 32 < m
  | .belowMinimum blocks => a.force = false ∧ blocks = v.minSize a.flags ∧
      ∃ n, Chosen v a newSizeStr n ∧ n < blocks
  | .invalidStride => 0 ≤ a.useStride ∧ toInt32 v.blocksPerGroup ≤ a.useStride
  | .deviceTooSmall blocks kilobytes newSize => a.force = false ∧ Chosen v a newSizeStr newSize ∧
      blocks = v.maxSize ∧ blocks = extendedSize v newSize ∧ kilobytes = 2 ^ v.logBlockSize ∧
      blocks < newSize
  | .setAndUnset => a.enables = true ∧ a.disables = true
  | .featureTooLarge => (a.disables || a.enables) = true ∧ v.bit64 = true ∧ 2 ^ 32 ≤ v.blocksCount
  | .featureMounted => (a.disables || a.enables) = true ∧ v.mounted = true
  | .needsExtents => a.enables = true ∧ v.extents = false
  | .nothingToDo blocks kilobytes => Chosen v a newSizeStr blocks ∧ blocks = v.blocksCount ∧
      kilobytes = 2 ^ v.logBlockSize ∧ a.enables = false ∧ a.disables = false
  | .already64bit => a.enables = true ∧ v.bit64 = true
  | .already32bit => a.disables = true ∧ v.bit64 = false
  | .bigalloc => a.force = false ∧ v.bigalloc = true

end

/-! ## Settings -/

abbrev table : List ArgNode := tableOf resize2fsOptions

/-- The flags with a bit of an option that is on. -/
def orIf (c : Prop) [Decidable c] (bit flags : BitVec 32) : BitVec 32 :=
  if c then flags ||| bit else flags

/-- What the segments of the roots do to the variables. -/
def effects (ir : List Ir) : List (Int × (Args → Args)) :=
  [(0, fun a => { a with flags := orIf (On ir 0) enable64bit a.flags }),
   (1, fun a => { a with flags := orIf (On ir 1) (BitVec.ofNat 32 (number ir 1)) a.flags }),
   (2, fun a => { a with force := if On ir 2 then true else a.force }),
   (3, fun a => { a with flush := if On ir 3 then true else a.flush }),
   (4, fun a => { a with forceMinSize := if On ir 4 then true else a.forceMinSize }),
   (5, fun a => { a with flags := orIf (On ir 5) percentComplete a.flags }),
   (6, fun a => { a with printMinSize := if On ir 6 then true else a.printMinSize }),
   (7, fun a => { a with flags := orIf (On ir 7) disable64bit a.flags }),
   (8, fun a => { a with useStride := if On ir 8 then 0 else a.useStride }),
   (9, fun a => { a with undoFile := if On ir 9 then some "undo_file".toList else a.undoFile })]

/-- The variables after the options of a configuration. The text of `-S` is no number, and the
program reads it as the stride zero. -/
def settings (ir : List Ir) : Args where
  flags := orIf (On ir 7) disable64bit (orIf (On ir 5) percentComplete
    (orIf (On ir 1) (BitVec.ofNat 32 (number ir 1)) (orIf (On ir 0) enable64bit 0)))
  flush := if On ir 3 then true else false
  force := if On ir 2 then true else false
  forceMinSize := if On ir 4 then true else false
  printMinSize := if On ir 6 then true else false
  useStride := if On ir 8 then 0 else -1
  undoFile := if On ir 9 then some "undo_file".toList else none

section

variable {ir : List Ir} {v : Volume} {device : Word}

theorem roots_table (ir : List Ir) : roots table = (effects ir).map Prod.fst := by
  show roots table = [0, 1, 2, 3, 4, 5, 6, 7, 8, 9]
  decide +kernel

theorem foldl_effects (ir : List Ir) : (effects ir).foldl (fun a p => p.2 a) {} = settings ir :=
  rfl

def rootKinds : List (Int × Char × Kind) :=
  [(0, 'b', .flag), (1, 'd', .number), (2, 'f', .flag), (3, 'F', .flag), (4, 'M', .flag),
    (5, 'p', .flag), (6, 'P', .flag), (7, 's', .flag), (8, 'S', .choice), (9, 'z', .choice)]

theorem nodes_table :
    (∀ r ∈ rootKinds, NodeAt table r.1 (IsRoot r.2.1 r.2.2)) ∧
    (NodeAt table 1 fun node => node.valueType = 2 ∧ node.valueInt = [2, 1, 5, 1]) ∧
    (NodeAt table 8 fun node => node.valueType = 3 ∧ node.valueChar = "RAID-stride") ∧
    NodeAt table 9 fun node => node.valueType = 3 ∧ node.valueChar = "undo_file" := by
  decide +kernel

/-- The program reads the options of the root as the effect says. -/
def Reads (ir : List Ir) (p : Int × (Args → Args)) : Prop :=
  ∀ a, (segment table ir p.1).foldlM readOption a = .ok (p.2 a)

theorem Reads.flag {i : Int} {x : Char} {f : Args → Args}
    (hr : (i, x, Kind.flag) ∈ rootKinds) (hoff : ¬ On ir i → ∀ a, f a = a)
    (hon : On ir i → ∀ a, readFlag a x = .ok (f a)) : Reads ir (i, f) := fun a =>
  run_flag (nodes_table.1 _ hr) (fun h => hoff h a) fun h => hon h a

end

/-- `resize2fs` on the fields of the printed command and the device. -/
def fuzzed (J : JsonC) (d : Draws) (heap : Heap) (v : Volume) (device : Word) :
    Except Fault Outcome :=
  (main J d heap (.obj (docOf resize2fsOptions))).map fun cmd =>
    run v (fields cmd.toList ++ [device])

end ConFuzz.Resize2fs
