import ConFuzz.Target.Options

/-!
# `mke2fs` reads a configuration

`settings ir` are the variables of `mke2fs` that a configuration of its table
stands for. The option loop of `PRS` accepts every command of a configuration and
ends with these settings (`prs_command`): no number is out of range, no option
comes twice, and the list of `-J` is read without complaint.
-/

namespace ConFuzz.Mke2fs

open ConFuzz.CLib ConFuzz.Config

/-- `strtod` is exact on whole numbers that a `double` holds. -/
def ReadsWhole (H : Host) : Prop :=
  ∀ n : Nat, n < 2 ^ 53 → H.strtod (toString n).toList = (.num n, [])

/-! ## Readers on printed numbers -/

section

variable {H : Host} {s : Prs} {n : Nat}

theorem parseNumBlocks2_toString (h : n < 2 ^ 64) (logBlockSize : Int) :
    parseNumBlocks2 (toString n).toList logBlockSize = n := by
  rw [parseNumBlocks2, strtoul_toString h]
  rfl

theorem wholeNumber_toString (h : n < 2 ^ 64) (message : String) :
    wholeNumber (toString n).toList message = .ok n := by
  rw [wholeNumber, strtoul_toString h, if_neg (fun hne => hne rfl)]

theorem readBlocksize_toString (h0 : 1024 ≤ n) (h1 : n ≤ 65536) :
    readArgument H s (toString n).toList 'b' = .ok { s with
      blocksize := n, param := { s.param with logBlockSize := intLog2 (n >>> 10) } } := by
  simp only [readArgument, reduceIte]
  unfold readBlocksize
  rw [parseNumBlocks2_toString (by omega), toInt32_natCast (by omega)]
  simp only [Int.natAbs_natCast, Int.toNat_natCast]
  rw [if_neg (by omega), if_pos (by omega)]

theorem readBlocksPerGroup_toString (h0 : n % 8 = 0) (h1 : n < 2 ^ 32) :
    readArgument H s (toString n).toList 'g' =
      .ok { s with param := { s.param with blocksPerGroup := n } } := by
  simp only [readArgument, reduceIte, Char.reduceEq, or_false]
  unfold readBlocksPerGroup
  rw [wholeNumber_toString (by omega), ok_bind]
  simp only [Nat.mod_eq_of_lt h1, h0, ne_eq, not_true_eq_false, if_false]
  rfl

theorem readFlexBgSize_toString {e : Nat} (h : e ≤ 31) (hn : n = 2 ^ e) :
    readArgument H s (toString n).toList 'G' = .ok { s with flexBgSize := n } := by
  have hpow : powerOfTwo n = true := by
    rw [hn]
    unfold powerOfTwo
    interval_cases e <;> decide
  have hpos : 1 ≤ n := hn ▸ Nat.one_le_two_pow
  have hle : n ≤ 2 ^ 31 := hn ▸ Nat.pow_le_pow_right (by decide) h
  simp only [readArgument, reduceIte, Char.reduceEq, or_false]
  unfold readFlexBgSize
  rw [wholeNumber_toString (by omega), ok_bind, hpow, if_neg (by simp; omega),
    if_neg (by omega)]
  rfl

theorem readInodeSize_toString (h : n < 2 ^ 31) :
    readArgument H s (toString n).toList 'I' = .ok { s with inodeSize := n } := by
  simp only [readArgument, reduceIte, Char.reduceEq, or_false]
  unfold readInodeSize
  rw [wholeNumber_toString (by omega), ok_bind, toInt32_natCast h]
  rfl

theorem readNumInodes_toString (h : n < 2 ^ 64) :
    readArgument H s (toString n).toList 'N' = .ok { s with numInodes := n } := by
  simp only [readArgument, reduceIte, Char.reduceEq, or_false]
  unfold readNumInodes
  rw [wholeNumber_toString h, ok_bind]
  rfl

theorem length_toString_le (h : n < 10 ^ 16) : (toString n).toList.length ≤ 16 := by
  rw [Nat.toString_eq_ofList_toDigits, String.toList_ofList,
    Nat.length_toDigits_le_iff (by decide) (by decide)]
  exact h

theorem readInodeRatio_toString (h0 : 1024 ≤ n) (h1 : n ≤ 65536 * 1024) :
    readArgument H s (toString n).toList 'i' = .ok { s with inodeRatio := n } := by
  simp only [readArgument, reduceIte, Char.reduceEq, or_false]
  unfold readInodeRatio
  rw [parseNumBlocks2_toString (by omega), toInt32_natCast (by omega)]
  exact if_neg (by omega)

theorem readReservedRatio_toString (hH : ReadsWhole H) (h : n ≤ 50) :
    readArgument H s (toString n).toList 'm' = .ok { s with reservedRatio := .num n } := by
  have h50 : ¬ (50 : ℚ) < n := by
    rw [not_lt]
    exact_mod_cast h
  have h0 : ¬ (n : ℚ) < 0 := by
    rw [not_lt]
    exact_mod_cast Nat.zero_le n
  simp only [readArgument, reduceIte, Char.reduceEq, or_false]
  unfold readReservedRatio
  rw [hH n (by omega)]
  exact if_neg (by simp [h50, h0])

theorem readRevision_toString (h : n ≤ 1) :
    readArgument H s (toString n).toList 'r' =
      .ok { s with rOpt := n, param := { s.param with revLevel := n } } := by
  simp only [readArgument, reduceIte, Char.reduceEq, or_false]
  unfold readRevision
  rw [wholeNumber_toString (by omega), ok_bind, toInt32_natCast (by omega), if_neg (by omega),
    toU32_natCast, Nat.mod_eq_of_lt (by omega)]
  rfl

end

/-! ## Settings -/

abbrev table : List ArgNode := tableOf mke2fsOptions

/-- The variables after the options of a configuration, from those before the loop. -/
def settings (start : Prs) (ir : List Ir) : Prs where
  blocksize := if On ir 0 then number ir 0 else start.blocksize
  param := { start.param with
    logBlockSize := if On ir 0 then intLog2 (number ir 0 >>> 10) else start.param.logBlockSize
    blocksPerGroup := if On ir 12 then number ir 12 else start.param.blocksPerGroup
    revLevel := if On ir 40 then number ir 40 else start.param.revLevel }
  cflag := start.cflag + (if On ir 1 then 1 else 0) + (if On ir 2 then 1 else 0)
  clusterSize := start.clusterSize
  srcRootDir := if On ir 47 then some "/tmp/legacy".toList else start.srcRootDir
  directIo := start.directIo
  extendedOpts := if On ir 3 then some (listArg table ir 3) else start.extendedOpts
  errorsBehavior := start.errorsBehavior
  force := start.force + (if On ir 11 then 1 else 0)
  flexBgSize := if On ir 13 then number ir 13 else start.flexBgSize
  inodeRatio := if On ir 14 then number ir 14 else start.inodeRatio
  inodeSize := if On ir 15 then number ir 15 else start.inodeSize
  journalSize :=
    if On ir 18 then number ir 18
    else if On ir 16 ∧ start.journalSize = 0 then -1
    else start.journalSize
  journalDevice := if On ir 19 then some "journal_dev".toList else start.journalDevice
  journalLocationString := start.journalLocationString
  journalFlags := start.journalFlags
  discard := if On ir 20 then false else start.discard
  badBlocksFilename := if On ir 21 then some "loop_dev".toList else start.badBlocksFilename
  volumeLabel := if On ir 22 then some (toString (number ir 22)).toList else start.volumeLabel
  reservedRatio := if On ir 23 then .num (number ir 23) else start.reservedRatio
  mountDir := if On ir 24 then some "./mnt".toList else start.mountDir
  noaction := start.noaction + (if On ir 25 then 1 else 0)
  numInodes := if On ir 26 then number ir 26 else start.numInodes
  creatorOs := if On ir 27 then some (choice ir 27) else start.creatorOs
  fsFeatures :=
    if On ir 28 then some (addFeatures start.fsFeatures (listArg table ir 28))
    else start.fsFeatures
  quiet := if On ir 39 then true else start.quiet
  rOpt := if On ir 40 then number ir 40 else start.rOpt
  sOpt := start.sOpt
  superOnly := if On ir 41 then true else start.superOnly
  fsType := if On ir 42 then some (choice ir 42) else start.fsType
  usageTypes := if On ir 43 then some (choice ir 43) else start.usageTypes
  fsUuid := if On ir 44 then some (choice ir 44) else start.fsUuid
  verbose := if On ir 45 then true else start.verbose
  showVersionOnly := start.showVersionOnly + (if On ir 46 then 1 else 0)
  undoFile := start.undoFile

def layoutEffects (ir : List Ir) : List (Int × (Prs → Prs)) :=
  [(0, fun s => { s with
      blocksize := if On ir 0 then number ir 0 else s.blocksize
      param := { s.param with
        logBlockSize := if On ir 0 then intLog2 (number ir 0 >>> 10) else s.param.logBlockSize } }),
   (1, fun s => { s with
      cflag := s.cflag + (if On ir 1 then 1 else 0) + (if On ir 2 then 1 else 0) }),
   (3, fun s => { s with
      extendedOpts := if On ir 3 then some (listArg table ir 3) else s.extendedOpts }),
   (11, fun s => { s with force := s.force + (if On ir 11 then 1 else 0) }),
   (12, fun s => { s with param := { s.param with
      blocksPerGroup := if On ir 12 then number ir 12 else s.param.blocksPerGroup } }),
   (13, fun s => { s with flexBgSize := if On ir 13 then number ir 13 else s.flexBgSize }),
   (14, fun s => { s with inodeRatio := if On ir 14 then number ir 14 else s.inodeRatio }),
   (15, fun s => { s with inodeSize := if On ir 15 then number ir 15 else s.inodeSize })]

def journalEffects (ir : List Ir) : List (Int × (Prs → Prs)) :=
  [(16, fun s => { s with
      journalSize := if On ir 16 ∧ s.journalSize = 0 then -1 else s.journalSize }),
   (17, fun s => { s with
      journalSize := if On ir 18 then number ir 18 else s.journalSize
      journalDevice := if On ir 19 then some "journal_dev".toList else s.journalDevice }),
   (20, fun s => { s with discard := if On ir 20 then false else s.discard }),
   (21, fun s => { s with
      badBlocksFilename := if On ir 21 then some "loop_dev".toList else s.badBlocksFilename }),
   (22, fun s => { s with
      volumeLabel := if On ir 22 then some (toString (number ir 22)).toList else s.volumeLabel }),
   (23, fun s => { s with
      reservedRatio := if On ir 23 then .num (number ir 23) else s.reservedRatio }),
   (24, fun s => { s with mountDir := if On ir 24 then some "./mnt".toList else s.mountDir }),
   (25, fun s => { s with noaction := s.noaction + (if On ir 25 then 1 else 0) })]

def featureEffects (ir : List Ir) : List (Int × (Prs → Prs)) :=
  [(26, fun s => { s with numInodes := if On ir 26 then number ir 26 else s.numInodes }),
   (27, fun s => { s with creatorOs := if On ir 27 then some (choice ir 27) else s.creatorOs }),
   (28, fun s => { s with
      fsFeatures :=
        if On ir 28 then some (addFeatures s.fsFeatures (listArg table ir 28)) else s.fsFeatures }),
   (39, fun s => { s with quiet := if On ir 39 then true else s.quiet }),
   (40, fun s => { s with
      rOpt := if On ir 40 then number ir 40 else s.rOpt
      param := { s.param with revLevel := if On ir 40 then number ir 40 else s.param.revLevel } }),
   (41, fun s => { s with superOnly := if On ir 41 then true else s.superOnly })]

def typeEffects (ir : List Ir) : List (Int × (Prs → Prs)) :=
  [(42, fun s => { s with fsType := if On ir 42 then some (choice ir 42) else s.fsType }),
   (43, fun s => { s with usageTypes := if On ir 43 then some (choice ir 43) else s.usageTypes }),
   (44, fun s => { s with fsUuid := if On ir 44 then some (choice ir 44) else s.fsUuid }),
   (45, fun s => { s with verbose := if On ir 45 then true else s.verbose }),
   (46, fun s => { s with showVersionOnly := s.showVersionOnly + (if On ir 46 then 1 else 0) }),
   (47, fun s => { s with
      srcRootDir := if On ir 47 then some "/tmp/legacy".toList else s.srcRootDir })]

/-- What the segments of the roots do to the variables. -/
def effects (ir : List Ir) : List (Int × (Prs → Prs)) :=
  layoutEffects ir ++ journalEffects ir ++ featureEffects ir ++ typeEffects ir

theorem roots_table (ir : List Ir) : roots table = (effects ir).map Prod.fst := by
  show roots table = [0, 1, 3, 11, 12, 13, 14, 15, 16, 17, 20, 21, 22, 23, 24, 25, 26, 27, 28, 39,
    40, 41, 42, 43, 44, 45, 46, 47]
  decide +kernel

theorem foldl_effects (start : Prs) (ir : List Ir) :
    (effects ir).foldl (fun s p => p.2 s) start = settings start ir := rfl

/-- `-t` and `-T` were not read yet. -/
def Ready (p : Int × (Prs → Prs)) (s : Prs) : Prop :=
  (p.1 = 42 → s.fsType = none) ∧ (p.1 = 43 → s.usageTypes = none)

section

variable {ir : List Ir}

theorem ready_effect {p q : Int × (Prs → Prs)} (hp : p ∈ effects ir) (hpq : p.1 ≠ q.1) {s : Prs}
    (h : Ready q s) : Ready q (p.2 s) := by
  have hkeep : ∀ p ∈ effects ir, ∀ s : Prs, (p.1 = 42 ∨ (p.2 s).fsType = s.fsType) ∧
      (p.1 = 43 ∨ (p.2 s).usageTypes = s.usageTypes) := by
    unfold effects layoutEffects journalEffects featureEffects typeEffects
    simp only [List.cons_append, List.nil_append]
    repeat first
      | exact fun p hp => absurd hp List.not_mem_nil
      | refine List.forall_mem_cons.2 ⟨fun s => ⟨.inr rfl, .inr rfl⟩, ?_⟩
      | refine List.forall_mem_cons.2 ⟨fun s => ⟨.inl rfl, .inr rfl⟩, ?_⟩
      | refine List.forall_mem_cons.2 ⟨fun s => ⟨.inr rfl, .inl rfl⟩, ?_⟩
  obtain ⟨ht, hT⟩ := hkeep p hp s
  refine ⟨fun hq => ?_, fun hq => ?_⟩
  · rw [ht.resolve_left (hq ▸ hpq)]
    exact h.1 hq
  · rw [hT.resolve_left (hq ▸ hpq)]
    exact h.2 hq

theorem nodup_effects : (effects ir).Pairwise fun p q => p.1 ≠ q.1 := by
  have hids : ((effects ir).map Prod.fst).Nodup := by
    show [(0 : Int), 1, 3, 11, 12, 13, 14, 15, 16, 17, 20, 21, 22, 23, 24, 25, 26, 27, 28, 39, 40,
      41, 42, 43, 44, 45, 46, 47].Nodup
    decide
  exact List.pairwise_map.1 hids

end

/-! ## The nodes -/

def rootKinds : List (Int × Char × Kind) :=
  [(0, 'b', .number), (3, 'E', .list), (11, 'F', .flag), (12, 'g', .number), (13, 'G', .number),
    (14, 'i', .number), (15, 'I', .number), (16, 'j', .flag), (17, 'J', .list), (20, 'K', .flag),
    (21, 'l', .choice), (22, 'L', .number), (23, 'm', .number), (24, 'M', .choice),
    (25, 'n', .flag), (26, 'N', .number), (27, 'o', .choice), (28, 'O', .list), (39, 'q', .flag),
    (40, 'r', .number), (41, 'S', .flag), (42, 't', .choice), (43, 'T', .choice),
    (44, 'U', .choice), (45, 'v', .flag), (46, 'V', .flag), (47, 'd', .choice)]

def ranges : List (Int × Int × List Nat) :=
  [(0, 2, [2, 0, 2, 1024]), (4, 1, [0, 1000, 1]), (5, 1, [0, 1000, 1]), (6, 1, [0, 1000000, 1]),
    (7, 1, [0, 1, 1]), (12, 1, [0, 1000, 8]), (13, 2, [2, 0, 10, 1]), (14, 1, [1024, 4096, 1]),
    (15, 2, [2, 0, 3, 128]), (18, 1, [1, 100, 1]), (22, 1, [0, 1000, 1]), (23, 1, [0, 50, 1]),
    (26, 1, [0, 1000, 1]), (40, 1, [0, 1, 1])]

def texts : List (Int × String) :=
  [(19, "journal_dev"), (21, "loop_dev"), (24, "./mnt"), (47, "/tmp/legacy")]

theorem nodes_table :
    (∀ r ∈ rootKinds, NodeAt table r.1 (IsRoot r.2.1 r.2.2)) ∧
    (∀ r ∈ ranges, NodeAt table r.1 fun node =>
      node.valueType = r.2.1 ∧ node.valueInt = r.2.2) ∧
    ∀ r ∈ texts, NodeAt table r.1 fun node => node.valueType = 3 ∧ node.valueChar = r.2 := by
  decide +kernel

/-! ## The segments -/

/-- The program reads the options of the root as the effect says. -/
def Reads (H : Host) (ir : List Ir) (p : Int × (Prs → Prs)) : Prop :=
  ∀ s, Ready p s → (segment table ir p.1).foldlM (prsOption H) s = .ok (p.2 s)

section

variable {ir : List Ir} {H : Host} {i : Int} {x : Char} {f : Prs → Prs}

theorem Reads.number (hr : (i, x, Kind.number) ∈ rootKinds) (hoff : ¬ On ir i → ∀ s, f s = s)
    (hon : On ir i → ∀ s, readArgument H s (toString (number ir i)).toList x = .ok (f s)) :
    Reads H ir (i, f) := fun s _ =>
  run_number (nodes_table.1 _ hr) (fun h => hoff h s) fun h => hon h s

theorem Reads.choice (hr : (i, x, Kind.choice) ∈ rootKinds) (hoff : ¬ On ir i → ∀ s, f s = s)
    (hon : On ir i → ∀ s, Ready (i, f) s → readArgument H s (choice ir i) x = .ok (f s)) :
    Reads H ir (i, f) := fun s hs =>
  run_choice (nodes_table.1 _ hr) (fun h => hoff h s) fun h => hon h s hs

theorem Reads.flag (hr : (i, x, Kind.flag) ∈ rootKinds) (hoff : ¬ On ir i → ∀ s, f s = s)
    (hon : On ir i → ∀ s, readFlag s x = .ok (f s)) :
    Reads H ir (i, f) := fun s _ =>
  run_flag (nodes_table.1 _ hr) (fun h => hoff h s) fun h => hon h s

theorem Reads.list (hr : (i, x, Kind.list) ∈ rootKinds) (hoff : ¬ On ir i → ∀ s, f s = s)
    (hon : On ir i → ∀ s, readArgument H s (listArg table ir i) x = .ok (f s)) :
    Reads H ir (i, f) := fun s _ =>
  run_list (nodes_table.1 _ hr) (fun h => hoff h s) fun h => hon h s

theorem range_arithmetic (hc : Configuration table ir) {a b c : Nat}
    (hr : (i, 1, [a, b, c]) ∈ ranges) (h : On ir i) :
    ∃ m, number ir i = a + m * c ∧ a + m * c ≤ b :=
  number_arithmetic hc (nodes_table.2.1 _ hr) h

theorem range_geometric (hc : Configuration table ir) {a b c d : Nat}
    (hr : (i, 2, [a, b, c, d]) ∈ ranges) (h : On ir i) :
    ∃ e, b ≤ e ∧ e ≤ c ∧ number ir i = a ^ e * d :=
  number_geometric hc (nodes_table.2.1 _ hr) h

theorem text_of (hc : Configuration table ir) {text : String} (hr : (i, text) ∈ texts)
    (h : On ir i) : choice ir i = text.toList :=
  choice_text hc (nodes_table.2.2 _ hr) h

theorem reads_badblocks (hc : Configuration table ir) : Reads H ir
    (1, fun s => { s with
      cflag := s.cflag + (if On ir 1 then 1 else 0) + (if On ir 2 then 1 else 0) }) := by
  have hdep : On ir 2 → On ir 1 := fun h => hc.valid.dep 2 h 1 (by decide +kernel)
  intro s _
  refine run_segment (fun h => ?_) fun h => ?_
  · simp [h, mt hdep h]
  · obtain ⟨cell, hcell, -⟩ := enableOf_eq_some.1 h
    obtain ⟨node, hn, hx, hchild, hop⟩ := (by decide +kernel : NodeAt table 1 fun node =>
      letterOf node = 'c' ∧ node.childId = [2] ∧ operatorText node.operatorChild = "")
    obtain ⟨leaf, hleaf, htext, hv⟩ := (by decide +kernel : NodeAt table 2 fun node =>
      (node.arg ++ operatorText node.operatorValue).toList = ['c'] ∧ ¬ HasValue node)
    rw [rootOpts, hn, hcell]
    simp only [hchild, hop, hx, List.cons_ne_nil, if_false, ne_eq, not_true_eq_false]
    by_cases h2 : On ir 2
    · obtain ⟨cell2, hcell2, -⟩ := enableOf_eq_some.1 h2
      have hchildren : enabledChildren node ir = [2] := by
        rw [enabledChildren, hchild]
        exact List.filter_cons_of_pos (decide_eq_true h2)
      have hhead : (leafText table ir 2).toList = ['c'] := by
        rw [leafText_eq hleaf hcell2, valueText_of_not hv, String.append_empty]
        exact htext
      rw [hchildren, List.map_singleton, hhead]
      simp only [h, h2, if_true]
      rfl
    · have hchildren : enabledChildren node ir = [] := by
        rw [enabledChildren, hchild]
        exact List.filter_cons_of_neg (by simpa using h2)
      rw [hchildren]
      simp only [h, h2, if_true, if_false]
      rfl

theorem reads_layout (hc : Configuration table ir) : ∀ p ∈ layoutEffects ir, Reads H ir p := by
  simp only [layoutEffects, List.forall_mem_cons]
  refine ⟨?_, reads_badblocks hc, ?_, ?_, ?_, ?_, ?_, ?_, fun p hp => absurd hp List.not_mem_nil⟩
  · refine .number (x := 'b') (by decide) (fun h s => by simp only [h, if_false])
      fun h s => ?_
    obtain ⟨e, -, he, hn⟩ := range_geometric hc (show (0, 2, [2, 0, 2, 1024]) ∈ ranges by decide) h
    have hlow : 1 ≤ 2 ^ e := Nat.one_le_two_pow
    have hhigh : 2 ^ e ≤ 2 ^ 2 := Nat.pow_le_pow_right (by decide) he
    simp only [h, if_true]
    exact readBlocksize_toString (by omega) (by omega)
  · exact .list (x := 'E') (by decide) (fun h s => by simp only [h, if_false])
      fun h s => by simp only [h, readArgument, reduceIte, Char.reduceEq, or_true]
  · exact .flag (x := 'F') (by decide) (fun h s => by simp only [h, if_false, Nat.add_zero])
      fun h s => by simp only [h, readFlag, reduceIte, Char.reduceEq]
  · refine .number (x := 'g') (by decide) (fun h s => by simp only [h, if_false])
      fun h s => ?_
    obtain ⟨m, hn, hm⟩ := range_arithmetic hc (show (12, 1, [0, 1000, 8]) ∈ ranges by decide) h
    simp only [h, if_true]
    exact readBlocksPerGroup_toString (by omega) (by omega)
  · refine .number (x := 'G') (by decide) (fun h s => by simp only [h, if_false])
      fun h s => ?_
    obtain ⟨e, -, he, hn⟩ := range_geometric hc (show (13, 2, [2, 0, 10, 1]) ∈ ranges by decide) h
    simp only [h, if_true]
    exact readFlexBgSize_toString (show e ≤ 31 by omega) (by rw [hn, Nat.mul_one])
  · refine .number (x := 'i') (by decide) (fun h s => by simp only [h, if_false])
      fun h s => ?_
    obtain ⟨m, hn, hm⟩ := range_arithmetic hc (show (14, 1, [1024, 4096, 1]) ∈ ranges by decide) h
    simp only [h, if_true]
    exact readInodeRatio_toString (by omega) (by omega)
  · refine .number (x := 'I') (by decide) (fun h s => by simp only [h, if_false])
      fun h s => ?_
    obtain ⟨e, -, he, hn⟩ := range_geometric hc (show (15, 2, [2, 0, 3, 128]) ∈ ranges by decide) h
    have hpow : 2 ^ e ≤ 2 ^ 3 := Nat.pow_le_pow_right (by decide) he
    simp only [h, if_true]
    exact readInodeSize_toString (by omega)

theorem journalOpt_size {s : Prs} {u n : Nat} (h : n < 2 ^ 31) :
    journalOpt H (s, u) ("size".toList, some (toString n).toList) =
      ({ s with journalSize := n }, u) := by
  rw [journalOpt, if_neg (by decide), if_pos rfl]
  simp only [strtoul_toString (Nat.lt_trans h (by decide)), toInt32_natCast h, ne_eq,
    not_true_eq_false, if_false]

theorem journalOpt_device {s : Prs} {u : Nat} {w : Word} (h : '=' ∉ w) :
    journalOpt H (s, u) ("device".toList, some w) = ({ s with journalDevice := some w }, u) := by
  rw [journalOpt, if_pos rfl, blkidGetDevname, if_neg h]

/-- The list of `-J` has one element: its children exclude each other. -/
theorem reads_journal_list (hc : Configuration table ir) : Reads H ir
    (17, fun s => { s with
      journalSize := if On ir 18 then number ir 18 else s.journalSize
      journalDevice := if On ir 19 then some "journal_dev".toList else s.journalDevice }) := by
  have hsize : On ir 18 → On ir 17 := fun h => hc.valid.dep 18 h 17 (by decide +kernel)
  have hdevice : On ir 19 → On ir 17 := fun h => hc.valid.dep 19 h 17 (by decide +kernel)
  have hnot : On ir 18 → ¬ On ir 19 := fun h h' =>
    hc.valid.mutex 18 19 h h' (by decide +kernel)
  refine .list (x := 'J') (by decide)
    (fun h s => by simp only [mt hsize h, mt hdevice h, if_false]) fun h s => ?_
  have hsome : On ir 18 ∨ On ir 19 := by
    obtain ⟨c, hmem, hon⟩ := hc.valid.child 17 h (by decide +kernel) (by decide +kernel)
    rw [show (graphOf table).child 17 = [18, 19] by decide +kernel] at hmem
    rcases List.mem_cons.1 hmem with rfl | hmem
    · exact .inl hon
    · rw [List.mem_singleton.1 hmem] at hon
      exact .inr hon
  have htokens := optionTokens_listArg hc (i := 17) (by decide +kernel :
    NodeAt table 17 fun node => node.childId = [18, 19]) (by decide +kernel)
  simp only [readArgument, reduceIte, Char.reduceEq, or_false, parseJournalOpts, htokens]
  by_cases h18 : On ir 18
  · obtain ⟨m, hn, hm⟩ := range_arithmetic hc (show (18, 1, [1, 100, 1]) ∈ ranges by decide) h18
    have helement := elementOf_number (by decide +kernel :
      NodeAt table 18 fun node => elementName node = "size".toList ∧
        (node.valueType = 1 ∨ node.valueType = 2)) h18
    have hfilter : [(18 : Int), 19].filter (fun c => On ir c) = [18] := by simp [h18, hnot h18]
    rw [hfilter, List.map_singleton, helement, List.foldl_cons, List.foldl_nil,
      journalOpt_size (by omega)]
    simp only [h18, hnot h18, if_true, if_false, ne_eq, not_true_eq_false]
  · have h19 := hsome.resolve_left h18
    have helement := elementOf_choice (by decide +kernel :
      NodeAt table 19 fun node => elementName node = "device".toList ∧
        (node.valueType = 3 ∨ node.valueType = 4)) h19
    have htext := text_of hc (show (19, "journal_dev") ∈ texts by decide) h19
    have hfilter : [(18 : Int), 19].filter (fun c => On ir c) = [19] := by simp [h18, h19]
    rw [hfilter, List.map_singleton, helement, List.foldl_cons, List.foldl_nil, htext,
      journalOpt_device (by decide)]
    simp only [h18, h19, if_true, if_false, ne_eq, not_true_eq_false]

theorem reads_journal (hc : Configuration table ir) (hH : ReadsWhole H) :
    ∀ p ∈ journalEffects ir, Reads H ir p := by
  simp only [journalEffects, List.forall_mem_cons]
  refine ⟨?_, reads_journal_list hc, ?_, ?_, ?_, ?_, ?_, ?_,
    fun p hp => absurd hp List.not_mem_nil⟩
  · exact .flag (x := 'j') (by decide) (fun h s => by simp only [h, false_and, if_false])
      fun h s => by simp only [h, true_and, readFlag, reduceIte, Char.reduceEq]
  · exact .flag (x := 'K') (by decide) (fun h s => by simp only [h, if_false])
      fun h s => by simp only [h, readFlag, reduceIte, Char.reduceEq]
  · refine .choice (x := 'l') (by decide) (fun h s => by simp only [h, if_false])
      fun h s _ => ?_
    rw [text_of hc (show (21, "loop_dev") ∈ texts by decide) h]
    simp only [h, readArgument, reduceIte, Char.reduceEq, or_false]
  · refine .number (x := 'L') (by decide) (fun h s => by simp only [h, if_false])
      fun h s => ?_
    obtain ⟨m, hn, hm⟩ := range_arithmetic hc (show (22, 1, [0, 1000, 1]) ∈ ranges by decide) h
    simp only [h, readArgument, reduceIte, Char.reduceEq, or_false]
    rw [List.take_of_length_le (length_toString_le (by omega))]
  · refine .number (x := 'm') (by decide) (fun h s => by simp only [h, if_false])
      fun h s => ?_
    obtain ⟨m, hn, hm⟩ := range_arithmetic hc (show (23, 1, [0, 50, 1]) ∈ ranges by decide) h
    simp only [h, if_true]
    exact readReservedRatio_toString hH (by omega)
  · refine .choice (x := 'M') (by decide) (fun h s => by simp only [h, if_false])
      fun h s _ => ?_
    rw [text_of hc (show (24, "./mnt") ∈ texts by decide) h]
    simp only [h, readArgument, reduceIte, Char.reduceEq, or_false]
  · exact .flag (x := 'n') (by decide) (fun h s => by simp only [h, if_false, Nat.add_zero])
      fun h s => by simp only [h, readFlag, reduceIte, Char.reduceEq]

theorem reads_feature (hc : Configuration table ir) : ∀ p ∈ featureEffects ir, Reads H ir p := by
  simp only [featureEffects, List.forall_mem_cons]
  refine ⟨?_, ?_, ?_, ?_, ?_, ?_, fun p hp => absurd hp List.not_mem_nil⟩
  · refine .number (x := 'N') (by decide) (fun h s => by simp only [h, if_false])
      fun h s => ?_
    obtain ⟨m, hn, hm⟩ := range_arithmetic hc (show (26, 1, [0, 1000, 1]) ∈ ranges by decide) h
    simp only [h, if_true]
    exact readNumInodes_toString (by omega)
  · exact .choice (x := 'o') (by decide) (fun h s => by simp only [h, if_false])
      fun h s _ => by simp only [h, readArgument, reduceIte, Char.reduceEq, or_false]
  · exact .list (x := 'O') (by decide) (fun h s => by simp only [h, if_false])
      fun h s => by simp only [h, readArgument, reduceIte, Char.reduceEq, or_false]
  · exact .flag (x := 'q') (by decide) (fun h s => by simp only [h, if_false])
      fun h s => by simp only [h, readFlag, reduceIte, Char.reduceEq]
  · refine .number (x := 'r') (by decide) (fun h s => by simp only [h, if_false])
      fun h s => ?_
    obtain ⟨m, hn, hm⟩ := range_arithmetic hc (show (40, 1, [0, 1, 1]) ∈ ranges by decide) h
    simp only [h, if_true]
    exact readRevision_toString (by omega)
  · exact .flag (x := 'S') (by decide) (fun h s => by simp only [h, if_false])
      fun h s => by simp only [h, readFlag, reduceIte, Char.reduceEq]

theorem reads_type (hc : Configuration table ir) : ∀ p ∈ typeEffects ir, Reads H ir p := by
  simp only [typeEffects, List.forall_mem_cons]
  refine ⟨?_, ?_, ?_, ?_, ?_, ?_, fun p hp => absurd hp List.not_mem_nil⟩
  · refine .choice (x := 't') (by decide) (fun h s => by simp only [h, if_false])
      fun h s hs => ?_
    simp only [h, readArgument, reduceIte, Char.reduceEq, or_false, readFsType, hs.1 rfl,
      Option.isSome_none, Bool.false_eq_true]
  · refine .choice (x := 'T') (by decide) (fun h s => by simp only [h, if_false])
      fun h s hs => ?_
    simp only [h, readArgument, reduceIte, Char.reduceEq, or_false, readUsageTypes, hs.2 rfl,
      Option.isSome_none, Bool.false_eq_true]
  · exact .choice (x := 'U') (by decide) (fun h s => by simp only [h, if_false])
      fun h s _ => by simp only [h, readArgument, reduceIte, Char.reduceEq, or_false]
  · exact .flag (x := 'v') (by decide) (fun h s => by simp only [h, if_false])
      fun h s => by simp only [h, readFlag, reduceIte, Char.reduceEq]
  · exact .flag (x := 'V') (by decide) (fun h s => by simp only [h, if_false, Nat.add_zero])
      fun h s => by simp only [h, readFlag, reduceIte, Char.reduceEq]
  · refine .choice (x := 'd') (by decide) (fun h s => by simp only [h, if_false])
      fun h s _ => ?_
    rw [text_of hc (show (47, "/tmp/legacy") ∈ texts by decide) h]
    simp only [h, readArgument, reduceIte, Char.reduceEq]

/-- The options of a configuration are read as its settings. -/
theorem foldlM_optionsOf (hc : Configuration table ir) (hH : ReadsWhole H) (start : Prs)
    (ht : start.fsType = none) (hT : start.usageTypes = none) :
    (optionsOf table ir).foldlM (prsOption H) start = .ok (settings start ir) := by
  have hreads : ∀ p ∈ effects ir, Reads H ir p := by
    simp only [effects, List.forall_mem_append]
    exact ⟨⟨⟨reads_layout hc, reads_journal hc hH⟩, reads_feature hc⟩, reads_type hc⟩
  have hrun := foldlM_segments Ready hreads
    (nodup_effects.imp_of_mem fun hp _ hpq s hs => ready_effect hp hpq hs)
    (fun p _ => ⟨fun _ => ht, fun _ => hT⟩)
  rw [optionsOf_eq, roots_table ir, List.flatMap_map, ← foldl_effects]
  exact hrun

/-- **The command of a configuration is accepted.** -/
theorem prs_command (hc : Configuration table ir) (hH : ReadsWhole H) (programName : Word)
    (beforeLinux22 : Bool) {device : Word} (hd : device.head? ≠ some '-') :
    prs H programName beforeLinux22
        (fields (mke2fs_spec.forest.command ir).toList ++ [device]) =
      .ok (settings (prsStart programName beforeLinux22) ir, [device]) := by
  have hread := foldlM_optionsOf hc hH (prsStart programName beforeLinux22) rfl rfl
  unfold prs
  rw [getopt_command mke2fs_spec mke2fs_shaped hc hd]
  simp only [hread, ok_bind, List.cons_ne_nil, false_and, if_false]
  rfl

end

/-- The call `mke2fs ${CMD} ${BASE_IMG}`, which `arg_fuzz.sh` keeps as a comment: the program gets
the fields of the printed command and the device. -/
def fuzzed (J : JsonC) (d : Draws) (heap : Heap) (H : Host) (programName : Word)
    (beforeLinux22 : Bool) (device : Word) : Except Fault (Except Quit (Prs × List Word)) :=
  (main J d heap (.obj (docOf mke2fsOptions))).map fun cmd =>
    prs H programName beforeLinux22 (fields cmd.toList ++ [device])

section

variable {J : JsonC} {heap : Heap} {H : Host} {device : Word}

theorem fuzzed_configuration (hJ : WholeDoubles J) (hcells : FreshCells mke2fsOptions heap)
    (hstray : (heap.node 3).dependencyId = []) (hH : ReadsWhole H) (programName : Word)
    (beforeLinux22 : Bool) (hd : device.head? ≠ some '-') (d : Draws) :
    ∃ ir, Configuration table ir ∧ fuzzed J d heap H programName beforeLinux22 device =
      .ok (.ok (settings (prsStart programName beforeLinux22) ir, [device])) := by
  obtain ⟨ir, hc, hrun⟩ := mke2fs_plain.main_configuration mke2fs_spec hJ hcells
    (noStrayDeps_mke2fs hstray) d
  refine ⟨ir, hc, ?_⟩
  rw [fuzzed, hrun, Except.map, prs_command hc hH programName beforeLinux22 hd]

end

/-- **Generator and target agree.** Every run of `main` on the shipped specification gives `mke2fs`
the settings of a configuration, and the settings of every configuration are given by some run. -/
theorem main_configures_mke2fs (J : JsonC) (hJ : WholeDoubles J) (heap : Heap)
    (hcells : FreshCells mke2fsOptions heap) (hstray : (heap.node 3).dependencyId = []) (H : Host)
    (hH : ReadsWhole H) (programName : Word) (beforeLinux22 : Bool) (device : Word)
    (hd : device.head? ≠ some '-') :
    (∀ d, ∃ ir, Configuration table ir ∧ fuzzed J d heap H programName beforeLinux22 device =
      .ok (.ok (settings (prsStart programName beforeLinux22) ir, [device]))) ∧
    ∀ ir, Configuration table ir → ∃ d, fuzzed J d heap H programName beforeLinux22 device =
      .ok (.ok (settings (prsStart programName beforeLinux22) ir, [device])) := by
  refine ⟨fuzzed_configuration hJ hcells hstray hH programName beforeLinux22 hd, fun ir hc => ?_⟩
  obtain ⟨d, hrun⟩ :=
    mke2fs_plain.main_generated mke2fs_spec hJ hcells (noStrayDeps_mke2fs hstray) hc
  refine ⟨d, ?_⟩
  rw [fuzzed, hrun, Except.map, prs_command hc hH programName beforeLinux22 hd]

/-- A host that reads the decimals without point and exponent. -/
def decimalHost : Host where
  strtod w :=
    if w ≠ [] ∧ w.all Char.isDigit then (.num (Nat.ofDigitChars 10 w 0), []) else (.num 0, w)
  devWithTag _ := none
  getuid := 0
  getgid := 0

theorem readsWhole_decimalHost : ReadsWhole decimalHost := by
  intro n _
  have hdigits : (toString n).toList.all Char.isDigit = true :=
    List.all_eq_true.2 fun c hc => isDigit_of_mem_toString hc
  have hne : (toString n).toList ≠ [] := (isWord_toString n).ne_nil
  show (if _ then _ else _) = _
  rw [if_pos ⟨hne, hdigits⟩, Nat.toString_eq_ofList_toDigits, String.toList_ofList,
    Nat.ofDigitChars_ten_toDigits]

theorem plainHeap_configures_mke2fs :
    (∀ d, ∃ ir, Configuration table ir ∧
      fuzzed wholeJsonC d plainHeap decimalHost "mke2fs".toList false "fs.img".toList =
        .ok (.ok (settings (prsStart "mke2fs".toList false) ir, ["fs.img".toList]))) ∧
    ∀ ir, Configuration table ir → ∃ d,
      fuzzed wholeJsonC d plainHeap decimalHost "mke2fs".toList false "fs.img".toList =
        .ok (.ok (settings (prsStart "mke2fs".toList false) ir, ["fs.img".toList])) :=
  main_configures_mke2fs wholeJsonC wholeDoubles_wholeJsonC plainHeap (fun _ _ => rfl) rfl
    decimalHost readsWhole_decimalHost "mke2fs".toList false "fs.img".toList (by decide)

end ConFuzz.Mke2fs
