import ConFuzz.Emit.Command
import ConFuzz.Load.Table

/-!
# The commands of the shipped specifications

Tables with the same options have the same configurations and the same commands,
so a run of `main` on a document generates exactly the commands of the table of
the document (`PlainDoc.main_generates`). The tables of the two shipped
documents are checked once (`mke2fs_spec`, `resize2fs_spec`).
-/

namespace ConFuzz

open ConFuzz.CLib ConFuzz.Config

section

variable {t t' : List ArgNode} {a b : ArgNode} {cell : Ir} {ir : List Ir}

/-! ## Tables with the same options -/

theorem SameTable.at? (h : SameTable t t') (i : Int) :
    (∃ a b, at? t i = some a ∧ at? t' i = some b ∧ SameOption a b) ∨
      (at? t i = none ∧ at? t' i = none) := by
  cases ha : CLib.at? t i with
  | some a =>
    obtain ⟨h0, h1⟩ := range_of_at? ha
    obtain ⟨b, hb⟩ := at?_of_mem_range (l := t') h0 (by rw [← h.length]; exact h1)
    exact .inl ⟨a, b, rfl, hb, h.node i a b ha hb⟩
  | none =>
    cases hb : CLib.at? t' i with
    | some b =>
      obtain ⟨h0, h1⟩ := range_of_at? hb
      obtain ⟨a, ha'⟩ := at?_of_mem_range (l := t) h0 (by rw [h.length]; exact h1)
      rw [ha] at ha'
      cases ha'
    | none => exact .inr ⟨rfl, rfl⟩

theorem SameTable.graphOf_eq (h : SameTable t t') : graphOf t = graphOf t' := by
  unfold graphOf
  congr 1 <;> funext i
  all_goals rcases h.at? i with ⟨a, b, ha, hb, hs⟩ | ⟨ha, hb⟩
  · simp [ha, hb, hs.mutex]
  · simp [ha, hb]
  · simp [ha, hb, hs.mustHave]
  · simp [ha, hb]
  · simp [ha, hb, hs.dependencyId]
  · simp [ha, hb]
  · simp [ha, hb, hs.mustChild]
  · simp [ha, hb]
  · simp [ha, hb, hs.childId]
  · simp [ha, hb]

theorem SameOption.siblingText_eq (h : SameOption a b) : siblingText a = siblingText b := by
  unfold siblingText
  rw [h.operatorSibling]

theorem SameOption.valueText_eq (h : SameOption a b) : valueText a cell = valueText b cell := by
  unfold valueText
  rw [h.valueType]

theorem SameTable.textsOf_eq (h : SameTable t t') : textsOf t ir = textsOf t' ir := by
  unfold textsOf
  congr 1 <;> funext i
  all_goals rcases h.at? i with ⟨a, b, ha, hb, hs⟩ | ⟨ha, hb⟩
  · simp [ha, hb, hs.arg, hs.operatorChild]
  · simp [ha, hb]
  · simp [ha, hb, hs.arg, hs.operatorValue, hs.valueText_eq]
  · simp [ha, hb]
  · simp [ha, hb, hs.siblingText_eq]
  · simp [ha, hb]

theorem SameTable.inTable_iff (h : SameTable t t') (i : Int) : InTable t i ↔ InTable t' i := by
  unfold InTable
  rw [h.length]

theorem SameOption.documented_iff (h : SameOption a b) :
    Documented a cell ↔ Documented b cell := by
  have hty := h.valueType
  constructor
  · rintro ⟨h1, h2, h3, h4⟩
    refine ⟨fun x y z hv hl => ?_, fun x y z f hv hl => ?_, fun hv => ?_, fun hv => ?_⟩
    · exact h1 x y z (by omega) (by rw [h.ints (by omega)]; exact hl)
    · exact h2 x y z f (by omega) (by rw [h.ints (by omega)]; exact hl)
    · rw [← h.text (by omega)]; exact h3 (by omega)
    · rw [← h.texts (by omega)]; exact h4 (by omega)
  · rintro ⟨h1, h2, h3, h4⟩
    refine ⟨fun x y z hv hl => ?_, fun x y z f hv hl => ?_, fun hv => ?_, fun hv => ?_⟩
    · exact h1 x y z (by omega) (by rw [← h.ints (by omega)]; exact hl)
    · exact h2 x y z f (by omega) (by rw [← h.ints (by omega)]; exact hl)
    · rw [h.text (by omega)]; exact h3 (by omega)
    · rw [h.texts (by omega)]; exact h4 (by omega)

theorem SameOption.nodeDoc (h : SameOption a b) (hb : NodeDoc b) : NodeDoc a := by
  have hty := h.valueType
  refine ⟨fun hv => ?_, fun hv => hb.steps ⟨by omega, ?_⟩⟩
  · cases hb.doc (by omega) with
    | arithmetic x y z hv hl hxy hy hz hz' =>
      exact .arithmetic x y z (by omega) (by rw [h.ints (by omega)]; exact hl) hxy hy hz hz'
    | geometric x y z f hv hl hyz hz hf hpow hprod =>
      exact .geometric x y z f (by omega) (by rw [h.ints (by omega)]; exact hl) hyz hz hf hpow hprod
    | texts hv hne => exact .texts (by omega) (by rw [h.texts (by omega)]; exact hne)
  · rw [← h.ints (by omega)]
    exact hv.2

theorem SameTable.mem (h : SameTable t t') (ha : a ∈ t) : ∃ b ∈ t', SameOption a b := by
  obtain ⟨k, hk⟩ := List.mem_iff_getElem?.1 ha
  rw [← at?_natCast] at hk
  rcases h.at? k with ⟨a', b, ha', hb, hs⟩ | ⟨hno, -⟩
  · rw [hk] at ha'
    cases ha'
    exact ⟨b, mem_of_at? hb, hs⟩
  · rw [hk] at hno
    cases hno

theorem SameTable.forestTable (h : SameTable t t') (hF : ForestTable t') : ForestTable t := by
  obtain ⟨h1, h2, h3, h4, h5⟩ := hF
  rw [← h.graphOf_eq] at h1 h2 h3 h4 h5
  exact ⟨fun p c hc => (h.inTable_iff c).2 (h1 p c hc), h2, h3, h4, h5⟩

theorem SameTable.specTable (h : SameTable t t') (hT : SpecTable t') : SpecTable t := by
  obtain ⟨hF, hx, hd, hids, hv, hdc, hlead⟩ := hT
  rw [← h.graphOf_eq] at hx hd hdc hlead
  have hvalues : ∀ node ∈ t, NodeDoc node := by
    intro node hn
    obtain ⟨node', hn', hs⟩ := h.mem hn
    exact hs.nodeDoc (hv node' hn')
  refine ⟨h.forestTable hF, hx, hd, ⟨?_, ?_, ?_, fun node hn => (hvalues node hn).valueOK⟩,
    hvalues, hdc, hlead⟩
  all_goals
    intro node hn m hm
    obtain ⟨node', hn', hs⟩ := h.mem hn
    rw [h.inTable_iff]
  · exact hids.mutex node' hn' m (by rw [← hs.mutex]; exact hm)
  · exact hids.dep node' hn' m (by rw [← hs.dependencyId]; exact hm)
  · exact hids.child node' hn' m (by rw [← hs.childId]; exact hm)

theorem SameTable.configuration_iff (h : SameTable t t') :
    Configuration t ir ↔ Configuration t' ir := by
  have hvalid : Valid (graphOf t) (InTable t) (On ir) ↔
      Valid (graphOf t') (InTable t') (On ir) := by
    rw [h.graphOf_eq, funext fun i => propext (h.inTable_iff i)]
  constructor
  · rintro ⟨hl, hv, hval⟩
    refine ⟨hl.trans h.length, hvalid.1 hv, fun i b cell hi hb hc => ?_⟩
    rcases h.at? i with ⟨a, b', ha, hb', hs⟩ | ⟨-, hno⟩
    · rw [hb] at hb'
      cases hb'
      exact hs.documented_iff.1 (hval i a cell hi ha hc)
    · rw [hb] at hno
      cases hno
  · rintro ⟨hl, hv, hval⟩
    refine ⟨hl.trans h.length.symm, hvalid.2 hv, fun i a cell hi ha hc => ?_⟩
    rcases h.at? i with ⟨a', b, ha', hb, hs⟩ | ⟨hno, -⟩
    · rw [ha] at ha'
      cases ha'
      exact hs.documented_iff.2 (hval i b cell hi hb hc)
    · rw [ha] at hno
      cases hno

theorem SameTable.command_eq (h : SameTable t t') (hF : ForestTable t) (hF' : ForestTable t')
    (ir : List Ir) : hF.command ir = hF'.command ir := by
  have hforest : hF.forest = hF'.forest := by
    unfold ForestTable.forest
    simp only [h.graphOf_eq]
  have hroots : enabledRoots t ir t.length = enabledRoots t' ir t'.length := by
    unfold enabledRoots ids
    rw [h.length, h.graphOf_eq]
  unfold ForestTable.command
  rw [hforest, hroots, h.textsOf_eq]

end

/-! ## Documents -/

/-- The `ir_` array that `main` allocates for a document has every node off. -/
def FreshCells (options : List OptionSpec) (heap : Heap) : Prop :=
  ∀ k, k < (allOptions options).length → (heap.cell k).enable = 0

section

variable {options : List OptionSpec} {J : JsonC} {heap : Heap}

/-- `main` on a document, as calls of `arg_fuzz` on the table that it loads. -/
theorem PlainDoc.main_call (h : PlainDoc options) (hJ : WholeDoubles J)
    (hcells : FreshCells options heap) (hdep : NoStrayDeps options heap) :
    ∃ (arr : List ArgNode) (argBitmap : List Nat) (mem : Stale), SameTable arr (tableOf options) ∧
      arr.length ≤ argBitmap.length ∧ mem.ir.length = arr.length ∧ AllOff mem.ir ∧
      ∀ d, main J d heap (.obj (docOf options)) =
        (argFuzz d arr arr.length argBitmap 0 mem >>= fun r => .ok r.1) := by
  obtain ⟨arr, hsame, hmain⟩ := h.main_eq hJ hdep
  refine ⟨arr, _, _, hsame, ?_, ?_, fun cell hc => ?_, hmain⟩
  · rw [length_malloc]
  · exact length_malloc heap.cell arr.length
  · obtain ⟨k, hk, rfl⟩ := List.mem_map.1 hc
    rw [List.mem_range, Int.toNat_natCast, hsame.length, tableOf, List.length_map] at hk
    exact hcells k hk

theorem PlainDoc.main_configuration (h : PlainDoc options) (hT : SpecTable (tableOf options))
    (hJ : WholeDoubles J) (hcells : FreshCells options heap) (hdep : NoStrayDeps options heap)
    (d : Draws) :
    ∃ ir, Configuration (tableOf options) ir ∧
      main J d heap (.obj (docOf options)) = .ok (hT.forest.command ir) := by
  obtain ⟨arr, argBitmap, mem, hsame, hb, hl, h0, hmain⟩ := h.main_call hJ hcells hdep
  obtain ⟨ir, r, hc, hr, hcmd⟩ := argFuzz_configuration (hsame.specTable hT) hb mem hl h0 d
  refine ⟨ir, hsame.configuration_iff.1 hc, ?_⟩
  rw [hmain, hr, ok_bind, hcmd, hsame.command_eq _ hT.forest]

theorem PlainDoc.main_generated (h : PlainDoc options) (hT : SpecTable (tableOf options))
    (hJ : WholeDoubles J) (hcells : FreshCells options heap) (hdep : NoStrayDeps options heap)
    {ir : List Ir} (hc : Configuration (tableOf options) ir) :
    ∃ d, main J d heap (.obj (docOf options)) = .ok (hT.forest.command ir) := by
  obtain ⟨arr, argBitmap, mem, hsame, hb, hl, h0, hmain⟩ := h.main_call hJ hcells hdep
  obtain ⟨d, r, hr, hcmd⟩ := (hsame.configuration_iff.2 hc).generated (hsame.specTable hT) hb mem
    hl h0
  refine ⟨d, ?_⟩
  rw [hmain, hr, ok_bind, hcmd, hsame.command_eq _ hT.forest]

end

/-! ## The shipped tables -/

theorem mke2fs_spec : SpecTable (tableOf mke2fsOptions) :=
  specTable_of_ids (forestTable_iff.2 (by decide +kernel)) (by decide +kernel) (by decide +kernel)
    (by decide +kernel)
    (fun node hn => nodeDoc_of_check ((List.all_eq_true.1 (by decide +kernel :
      (tableOf mke2fsOptions).all NodeDoc.check = true)) node hn))
    (by decide +kernel) (by decide +kernel)

/-- The commands of `main` on a document are the renderings of the configurations of its table,
and every run prints one. -/
def PrintsExactly (options : List OptionSpec) (hF : ForestTable (tableOf options)) (J : JsonC)
    (heap : Heap) : Prop :=
  (∀ d, ∃ cmd, main J d heap (.obj (docOf options)) = .ok cmd) ∧
  ∀ cmd, (∃ d, main J d heap (.obj (docOf options)) = .ok cmd) ↔
    ∃ ir, Configuration (tableOf options) ir ∧ cmd = hF.command ir

theorem PlainDoc.printsExactly {options : List OptionSpec} (h : PlainDoc options)
    (hT : SpecTable (tableOf options)) {J : JsonC} (hJ : WholeDoubles J) {heap : Heap}
    (hcells : FreshCells options heap) (hdep : NoStrayDeps options heap) :
    PrintsExactly options hT.forest J heap := by
  refine ⟨fun d => ?_, fun cmd => ⟨?_, ?_⟩⟩
  · obtain ⟨ir, -, hrun⟩ := h.main_configuration hT hJ hcells hdep d
    exact ⟨_, hrun⟩
  · rintro ⟨d, hd⟩
    obtain ⟨ir, hc, hrun⟩ := h.main_configuration hT hJ hcells hdep d
    rw [hd] at hrun
    exact ⟨ir, hc, Except.ok.inj hrun⟩
  · rintro ⟨ir, hc, rfl⟩
    exact h.main_generated hT hJ hcells hdep hc

theorem resize2fs_spec : SpecTable (tableOf resize2fsOptions) :=
  specTable_of_ids (forestTable_iff.2 (by decide +kernel)) (by decide +kernel) (by decide +kernel)
    (by decide +kernel)
    (fun node hn => nodeDoc_of_check ((List.all_eq_true.1 (by decide +kernel :
      (tableOf resize2fsOptions).all NodeDoc.check = true)) node hn))
    (by decide +kernel) (by decide +kernel)

theorem noStrayDeps_mke2fs {heap : Heap} (h : (heap.node 3).dependencyId = []) :
    NoStrayDeps mke2fsOptions heap := by
  have hone : ∀ o ∈ allOptions mke2fsOptions, o.2.1.dependencyKey ≠ Field.dependencyId.key →
      o.2.1.id = 3 := by decide +kernel
  intro o ho hkey
  rw [hone o ho hkey]
  exact h

theorem noStrayDeps_resize2fs (heap : Heap) : NoStrayDeps resize2fsOptions heap := by
  have hnone : ∀ o ∈ allOptions resize2fsOptions,
      o.2.1.dependencyKey = Field.dependencyId.key := by decide +kernel
  intro o ho hkey
  exact absurd (hnone o ho) hkey

theorem freshCells_resize2fs {heap : Heap} (hcells : FreshCells mke2fsOptions heap) :
    FreshCells resize2fsOptions heap := by
  have hlen : (allOptions resize2fsOptions).length ≤ (allOptions mke2fsOptions).length := by
    decide +kernel
  exact fun k hk => hcells k (Nat.lt_of_lt_of_le hk hlen)

/-- **The shipped specifications print exactly their configurations.** With fresh cells, and
without dependencies in the memory under `-E`, every run of `main` on one of the two documents
prints the command of a complete, consistent configuration with documented values, and every
such command is printed by some run. -/
theorem main_prints_shipped (J : JsonC) (hJ : WholeDoubles J) (heap : Heap)
    (hcells : FreshCells mke2fsOptions heap) (hstray : (heap.node 3).dependencyId = []) :
    PrintsExactly mke2fsOptions mke2fs_spec.forest J heap ∧
      PrintsExactly resize2fsOptions resize2fs_spec.forest J heap := by
  constructor
  · exact mke2fs_plain.printsExactly mke2fs_spec hJ hcells (noStrayDeps_mke2fs hstray)
  · exact resize2fs_plain.printsExactly resize2fs_spec hJ (freshCells_resize2fs hcells)
      (noStrayDeps_resize2fs heap)

/-- The accessors of a library that reads doubles. -/
def wholeJsonC : JsonC := { plainJsonC with intOfDouble := fun text => integerPart text }

theorem wholeDoubles_wholeJsonC : WholeDoubles wholeJsonC := fun _ _ =>
  congrArg Int.ofNat integerPart_toString

theorem plainHeap_prints_shipped :
    PrintsExactly mke2fsOptions mke2fs_spec.forest wholeJsonC plainHeap ∧
      PrintsExactly resize2fsOptions resize2fs_spec.forest wholeJsonC plainHeap :=
  main_prints_shipped wholeJsonC wholeDoubles_wholeJsonC plainHeap (fun _ _ => rfl) rfl

end ConFuzz
