import ConFuzz.Target.Options

/-!
# A command determines its configuration

Two configurations of a table have the same command if and only if they have the
same options on, with the same values (`command_eq_iff`). By `getopt_command` the
command determines the options in the sense of `getopt`; since no two roots share
a character, these fall apart into the segments of the roots, and since no two
elements of a list share a name, the argument of a root falls apart into its
children.
-/

namespace ConFuzz

open ConFuzz.CLib ConFuzz.Config

theorem filter_flatMap_own {α β : Type} {f : α → List β} (own : α → β → Bool) : ∀ {l : List α},
    (∀ a ∈ l, ∀ b ∈ f a, own a b = true) →
    l.Pairwise (fun a a' => (∀ b ∈ f a', own a b = false) ∧ ∀ b ∈ f a, own a' b = false) →
    ∀ a ∈ l, (l.flatMap f).filter (own a) = f a
  | [], _, _, _, ha => absurd ha List.not_mem_nil
  | x :: l, hown, hpw, a, ha => by
    obtain ⟨hx, hl⟩ := List.pairwise_cons.1 hpw
    rw [List.flatMap_cons, List.filter_append]
    rcases List.mem_cons.1 ha with rfl | ha
    · have hrest : (l.flatMap f).filter (own a) = [] := by
        refine List.filter_eq_nil_iff.2 fun b hb => ?_
        obtain ⟨a', ha', hb⟩ := List.mem_flatMap.1 hb
        rw [(hx a' ha').1 b hb]
        exact Bool.false_ne_true
      rw [List.filter_eq_self.2 (hown a List.mem_cons_self), hrest, List.append_nil]
    · have hfirst : (f x).filter (own a) = [] := by
        refine List.filter_eq_nil_iff.2 fun b hb => ?_
        rw [(hx a ha).2 b hb]
        exact Bool.false_ne_true
      rw [hfirst, List.nil_append]
      exact filter_flatMap_own own (fun a ha => hown a (List.mem_cons_of_mem x ha)) hl a ha

/-! ## Readable tables -/

def childLetter (t : List ArgNode) (c : Int) : Char :=
  ((at? t c).map fun child => child.arg.toList.headD '?').getD '?'

def optLetters (t : List ArgNode) (i : Int) : List Char :=
  match at? t i with
  | some node =>
    letterOf node ::
      (if operatorText node.operatorChild = "" then node.childId.map (childLetter t) else [])
  | none => []

def nameAt (t : List ArgNode) (c : Int) : Word := ((at? t c).map elementName).getD []

/-- The children of a root are read back. -/
def ReadableRoot (t : List ArgNode) (node : ArgNode) : Prop :=
  (node.childId ≠ [] → ¬ HasValue node) ∧
    (operatorText node.operatorChild ≠ "" →
      (∀ c ∈ node.childId, NodeAt t c NamedShape) ∧ (node.childId.map (nameAt t)).Nodup)

instance (t : List ArgNode) (node : ArgNode) : Decidable (ReadableRoot t node) :=
  inferInstanceAs (Decidable (_ ∧ _))

/-- A table whose commands can be told apart. -/
structure Readable (t : List ArgNode) : Prop where
  letters : (roots t).Pairwise fun i j => ∀ x ∈ optLetters t i, x ∉ optLetters t j
  root : ∀ i ∈ roots t, NodeAt t i (ReadableRoot t)
  covers : ∀ j ∈ ids t, j ∈ roots t ∨ ∃ i ∈ roots t, j ∈ (graphOf t).child i

section

variable {optstring : List Char} {t : List ArgNode} {ir ir' : List Ir} {node : ArgNode}
  {cell cell' : Ir} {i : Int}

/-! ## Segments -/

theorem leafText_flagChild {c : Int} {child : ArgNode} (hf : FlagChild optstring child)
    (hn : at? t c = some child) (hcell : at? ir c = some cell) :
    (leafText t ir c).toList.headD '?' = childLetter t c := by
  obtain ⟨-, hv, hop, -⟩ := hf
  rw [leafText_eq hn hcell, valueText_of_not hv, hop, childLetter, hn]
  simp

theorem opt_mem_optLetters (hc : Configuration t ir) (hn : at? t i = some node)
    (hs : RootShape optstring t node) {o : Opt} (ho : o ∈ segment t ir i) :
    o.opt ∈ optLetters t i := by
  unfold segment at ho
  split at ho
  · next hon =>
    obtain ⟨cell, hcell, -⟩ := enableOf_eq_some.1 hon
    rw [rootOpts, hn, hcell] at ho
    rw [optLetters, hn]
    simp only at ho
    split at ho
    · split at ho <;> rw [List.mem_singleton.1 ho] <;> exact List.mem_cons_self
    · next hne =>
      split at ho
      · rw [List.mem_singleton.1 ho]
        exact List.mem_cons_self
      · next hop =>
        rcases List.mem_cons.1 ho with rfl | ho
        · exact List.mem_cons_self
        · obtain ⟨c, hmem, rfl⟩ := List.mem_map.1 ho
          obtain ⟨hmem, hcon⟩ := List.mem_filter.1 hmem
          have hcon := of_decide_eq_true hcon
          obtain ⟨child, hchild⟩ := at?_of_inTable (hc.valid.node c hcon) rfl
          obtain ⟨ccell, hccell, -⟩ := enableOf_eq_some.1 hcon
          have hflag : FlagChild optstring child := by
            rcases hs.2.2.2 with h | h | h | h
            · exact absurd h.1 hne
            · exact absurd h.1 hne
            · exact absurd h.2.2.2.1 hop
            · have hall := h.2.2.2.2 c hmem
              rw [hchild] at hall
              exact of_decide_eq_true hall
          rw [not_not] at hop
          simp only [hop, if_true]
          refine List.mem_cons_of_mem _ (List.mem_map.2 ⟨c, hmem, ?_⟩)
          exact (leafText_flagChild hflag hchild hccell).symm
  · cases ho

theorem mem_roots : i ∈ roots t ↔ i ∈ ids t ∧ ∀ p ∈ ids t, i ∉ (graphOf t).child p := by
  unfold roots
  rw [List.mem_filter, decide_eq_true_eq]

theorem rootShape_of_mem (hs : Shaped optstring t) (hi : i ∈ roots t) :
    ∃ node, at? t i = some node ∧ RootShape optstring t node := by
  obtain ⟨hi, hroot⟩ := mem_roots.1 hi
  obtain ⟨node, hn⟩ := at?_of_inTable (mem_ids.1 hi) rfl
  have h := hs i hi hroot
  rw [hn] at h
  exact ⟨node, hn, of_decide_eq_true h⟩

/-- The segment of a root is what has its characters. -/
theorem filter_optionsOf (hs : Shaped optstring t) (hR : Readable t) (hc : Configuration t ir)
    (hi : i ∈ roots t) :
    (optionsOf t ir).filter (fun o => o.opt ∈ optLetters t i) = segment t ir i := by
  have hletters : ∀ i ∈ roots t, ∀ o ∈ segment t ir i, o.opt ∈ optLetters t i := by
    intro i hi o ho
    obtain ⟨node, hn, hshape⟩ := rootShape_of_mem hs hi
    exact opt_mem_optLetters hc hn hshape ho
  rw [optionsOf_eq]
  refine filter_flatMap_own (fun i o => decide (o.opt ∈ optLetters t i))
    (fun i hi o ho => decide_eq_true (hletters i hi o ho)) ?_ i hi
  refine hR.letters.imp_of_mem fun ha hb hab => ⟨fun o ho => ?_, fun o ho => ?_⟩
  · exact decide_eq_false fun h => hab o.opt h (hletters _ hb o ho)
  · exact decide_eq_false (hab o.opt (hletters _ ha o ho))

/-! ## Roots -/

theorem segment_of_on (h : On ir i) : segment t ir i = rootOpts t ir i := if_pos h

theorem on_of_segment (hn : at? t i = some node) (hseg : segment t ir i = segment t ir' i)
    (h : On ir i) : On ir' i := by
  by_contra h'
  obtain ⟨cell, hcell, -⟩ := enableOf_eq_some.1 h
  have hnil : segment t ir' i = [] := if_neg h'
  rw [hnil, segment_of_on h, rootOpts, hn, hcell] at hseg
  simp only at hseg
  split at hseg
  · split at hseg <;> cases hseg
  · split at hseg <;> cases hseg

theorem toString_injective {m n : Nat} (h : toString m = toString n) : m = n := by
  have hdigits := congrArg (fun s : String => Nat.ofDigitChars 10 s.toList 0) h
  simpa only [Nat.toString_eq_ofList_toDigits, String.toList_ofList,
    Nat.ofDigitChars_ten_toDigits] using hdigits

/-- A printed value determines the value. -/
theorem sameValue_of_valueText (h : valueText node cell = valueText node cell') :
    SameValue node cell cell' := by
  unfold valueText at h
  refine ⟨fun hv => ?_, fun hv => ?_⟩
  · rw [if_pos hv, if_pos hv] at h
    exact toString_injective h
  · have hnot : ¬ (node.valueType = 1 ∨ node.valueType = 2) := by omega
    rwa [if_neg hnot, if_neg hnot, if_pos hv, if_pos hv] at h

theorem sameValue_of_not (h : ¬ HasValue node) : SameValue node cell cell' := by
  unfold HasValue at h
  exact ⟨fun hv => by omega, fun hv => by omega⟩

theorem sameValue_of_segment (hn : at? t i = some node) (hleaf : node.childId = [])
    (hseg : segment t ir i = segment t ir' i) (h : On ir i) (hcell : at? ir i = some cell)
    (hcell' : at? ir' i = some cell') : SameValue node cell cell' := by
  have h' := on_of_segment hn hseg h
  by_cases hv : HasValue node
  · rw [segment_of_on h, segment_of_on h', rootOpts, rootOpts, hn, hcell, hcell'] at hseg
    simp only [hleaf, hv, if_true, List.cons.injEq, Opt.mk.injEq, Option.some.injEq, and_true,
      true_and] at hseg
    exact sameValue_of_valueText (String.toList_inj.1 hseg)
  · exact sameValue_of_not hv

theorem listArg_of_segment (hn : at? t i = some node) (hne : node.childId ≠ [])
    (hop : operatorText node.operatorChild ≠ "") (hseg : segment t ir i = segment t ir' i)
    (h : On ir i) : listArg t ir i = listArg t ir' i := by
  have h' := on_of_segment hn hseg h
  obtain ⟨cell, hcell, -⟩ := enableOf_eq_some.1 h
  obtain ⟨cell', hcell', -⟩ := enableOf_eq_some.1 h'
  rw [segment_of_on h, segment_of_on h', rootOpts, rootOpts, hn, hcell, hcell'] at hseg
  simp only [hne, hop, if_false, if_true, ne_eq, not_false_eq_true, List.cons.injEq, Opt.mk.injEq,
    Option.some.injEq, and_true, true_and] at hseg
  rw [listArg, listArg, hn]
  exact hseg

theorem bundle_of_segment (hn : at? t i = some node) {c : Int} (hchild : node.childId = [c])
    (hop : operatorText node.operatorChild = "") (hseg : segment t ir i = segment t ir' i)
    (h : On ir i) (hcon : On ir c) : On ir' c := by
  have h' := on_of_segment hn hseg h
  obtain ⟨cell, hcell, -⟩ := enableOf_eq_some.1 h
  obtain ⟨cell', hcell', -⟩ := enableOf_eq_some.1 h'
  have hlen := congrArg List.length hseg
  rw [segment_of_on h, segment_of_on h', rootOpts, rootOpts, hn, hcell, hcell'] at hlen
  simp only [hchild, hop, enabledChildren, List.cons_ne_nil, if_false, ne_eq, not_true_eq_false,
    List.length_cons, List.length_map] at hlen
  by_contra hoff
  simp [hcon, hoff] at hlen

/-! ## Lists -/

/-- A list determines which of its elements are on, and their arguments. -/
theorem element_of_listArg (hc : Configuration t ir) (hc' : Configuration t ir')
    (hn : at? t i = some node) (hnames : ∀ c ∈ node.childId, NodeAt t c NamedShape)
    (hnd : (node.childId.map (nameAt t)).Nodup) (hlist : listArg t ir i = listArg t ir' i) {c : Int}
    (hmem : c ∈ node.childId) (hcon : On ir c) :
    On ir' c ∧ elementOf t ir c = elementOf t ir' c := by
  have hnode : NodeAt t i fun n => n.childId = node.childId := ⟨node, hn, rfl⟩
  have htokens := congrArg Mke2fs.optionTokens hlist
  rw [optionTokens_listArg hc hnode hnames, optionTokens_listArg hc' hnode hnames] at htokens
  have hname : ∀ ir c, On ir c → (at? t c).isSome → (elementOf t ir c).1 = nameAt t c := by
    intro ir c hon hsome
    obtain ⟨cell, hcell, -⟩ := enableOf_eq_some.1 hon
    obtain ⟨child, hchild⟩ := Option.isSome_iff_exists.1 hsome
    simp only [elementOf, nameAt, hchild, hcell, Option.map_some, Option.getD_some]
  have hsome : ∀ c ∈ node.childId, (at? t c).isSome := by
    intro c hmem
    obtain ⟨child, hchild, -⟩ := hnames c hmem
    rw [hchild]
    rfl
  have helement : elementOf t ir c ∈
      (node.childId.filter fun c => On ir' c).map (elementOf t ir') := by
    rw [← htokens]
    exact List.mem_map.2 ⟨c, List.mem_filter.2 ⟨hmem, decide_eq_true hcon⟩, rfl⟩
  obtain ⟨c', hmem', heq⟩ := List.mem_map.1 helement
  obtain ⟨hmem', hcon'⟩ := List.mem_filter.1 hmem'
  have hcon' := of_decide_eq_true hcon'
  have hcc : nameAt t c' = nameAt t c := by
    rw [← hname ir' c' hcon' (hsome c' hmem'), ← hname ir c hcon (hsome c hmem), heq]
  obtain rfl : c' = c := List.inj_on_of_nodup_map hnd hmem' hmem hcc
  exact ⟨hcon', heq.symm⟩

theorem sameValue_of_elementOf {c : Int} (hn : at? t c = some node) (hcell : at? ir c = some cell)
    (hcell' : at? ir' c = some cell') (h : elementOf t ir c = elementOf t ir' c) :
    SameValue node cell cell' := by
  by_cases hv : HasValue node
  · simp only [elementOf, hn, hcell, hcell', elementArg, hv, if_true, Prod.mk.injEq,
      Option.some.injEq, true_and] at h
    exact sameValue_of_valueText (String.toList_inj.1 h)
  · exact sameValue_of_not hv

/-! ## Commands -/

/-- What the segments say about a node that is on. -/
theorem option_of_segments (hT : SpecTable t) (hs : Shaped optstring t) (hR : Readable t)
    (hc : Configuration t ir) (hc' : Configuration t ir')
    (hseg : ∀ i ∈ roots t, segment t ir i = segment t ir' i) {j : Int} (hon : On ir j)
    (hn : at? t j = some node) (hcell : at? ir j = some cell) :
    On ir' j ∧ ∀ cell', at? ir' j = some cell' → SameValue node cell cell' := by
  rcases hR.covers j (mem_ids.2 (hc.valid.node j hon)) with hj | ⟨i, hi, hj⟩
  · obtain ⟨node', hn', hvalue, -⟩ := hR.root j hj
    rw [hn] at hn'
    obtain rfl := Option.some.inj hn'
    refine ⟨on_of_segment hn (hseg j hj) hon, fun cell' hcell' => ?_⟩
    by_cases hleaf : node.childId = []
    · exact sameValue_of_segment hn hleaf (hseg j hj) hon hcell hcell'
    · exact sameValue_of_not (hvalue hleaf)
  · have hion : On ir i := hc.parent_on hT hj hon
    obtain ⟨root, hroot, hshape⟩ := rootShape_of_mem hs hi
    rw [graphOf_child hroot] at hj
    have hne : root.childId ≠ [] := List.ne_nil_of_mem hj
    by_cases hop : operatorText root.operatorChild = ""
    · obtain ⟨-, -, -, h | h | h | h⟩ := hshape
      · exact absurd h.1 hne
      · exact absurd h.1 hne
      · exact absurd hop h.2.2.2.1
      · obtain ⟨c, hchild⟩ := List.length_eq_one_iff.1 h.1
        rw [hchild, List.mem_singleton] at hj
        subst hj
        have hflag := h.2.2.2.2 j (by rw [hchild]; exact List.mem_singleton_self j)
        rw [hn] at hflag
        exact ⟨bundle_of_segment hroot hchild hop (hseg i hi) hion hon, fun cell' _ =>
          sameValue_of_not (of_decide_eq_true hflag : FlagChild optstring node).2.1⟩
    · obtain ⟨root', hroot', -, hlist⟩ := hR.root i hi
      rw [hroot] at hroot'
      obtain rfl := Option.some.inj hroot'
      obtain ⟨hnames, hnd⟩ := hlist hop
      obtain ⟨hon', heq⟩ := element_of_listArg hc hc' hroot hnames hnd
        (listArg_of_segment hroot hne hop (hseg i hi) hion) hj hon
      exact ⟨hon', fun cell' hcell' => sameValue_of_elementOf hn hcell hcell' heq⟩

end

/-- **A command determines its configuration.** -/
theorem command_eq_iff {t : List ArgNode} (hT : SpecTable t) {optstring : List Char}
    (hs : Shaped optstring t) (hR : Readable t) {ir ir' : List Ir} (hc : Configuration t ir)
    (hc' : Configuration t ir') :
    hT.forest.command ir = hT.forest.command ir' ↔ SameOptions t ir ir' := by
  refine ⟨fun h => ?_, hT.forest.command_congr hc.length hc'.length⟩
  have hoptions : optionsOf t ir = optionsOf t ir' := by
    have hdevice : "fs".toList.head? ≠ some '-' := by decide
    have hread := getopt_command hT hs hc hdevice
    have hread' := getopt_command hT hs hc' hdevice
    rw [h, hread'] at hread
    exact (Prod.mk.inj hread).1.symm
  have hseg : ∀ i ∈ roots t, segment t ir i = segment t ir' i := by
    intro i hi
    rw [← filter_optionsOf hs hR hc hi, ← filter_optionsOf hs hR hc' hi, hoptions]
  refine ⟨fun j => ⟨fun hon => ?_, fun hon => ?_⟩, fun j node cell cell' hon hn hcell hcell' => ?_⟩
  · obtain ⟨node, hn⟩ := at?_of_inTable (hc.valid.node j hon) rfl
    obtain ⟨cell, hcell, -⟩ := enableOf_eq_some.1 hon
    exact (option_of_segments hT hs hR hc hc' hseg hon hn hcell).1
  · obtain ⟨node, hn⟩ := at?_of_inTable (hc'.valid.node j hon) rfl
    obtain ⟨cell, hcell, -⟩ := enableOf_eq_some.1 hon
    exact (option_of_segments hT hs hR hc' hc (fun i hi => (hseg i hi).symm) hon hn hcell).1
  · obtain ⟨hint, hchar⟩ := (option_of_segments hT hs hR hc' hc (fun i hi => (hseg i hi).symm) hon
      hn hcell).2 cell' hcell'
    exact ⟨fun hv => (hint hv).symm, fun hv => (hchar hv).symm⟩

theorem mke2fs_readable : Readable (tableOf mke2fsOptions) :=
  ⟨by decide +kernel, by decide +kernel, by decide +kernel⟩

theorem resize2fs_readable : Readable (tableOf resize2fsOptions) :=
  ⟨by decide +kernel, by decide +kernel, by decide +kernel⟩

/-- Every run of `main` on a document prints a command that stands for one configuration. -/
def StandsForOne (options : List OptionSpec) (hF : ForestTable (tableOf options)) (J : JsonC)
    (heap : Heap) : Prop :=
  ∀ d, ∃ cmd ir, main J d heap (.obj (docOf options)) = .ok cmd ∧
    Configuration (tableOf options) ir ∧
    ∀ ir', Configuration (tableOf options) ir' →
      (cmd = hF.command ir' ↔ SameOptions (tableOf options) ir' ir)

theorem PlainDoc.standsForOne {options : List OptionSpec} (h : PlainDoc options)
    (hT : SpecTable (tableOf options)) {optstring : List Char}
    (hs : Shaped optstring (tableOf options)) (hR : Readable (tableOf options)) {J : JsonC}
    (hJ : WholeDoubles J) {heap : Heap} (hcells : FreshCells options heap)
    (hdep : NoStrayDeps options heap) : StandsForOne options hT.forest J heap := by
  intro d
  obtain ⟨ir, hc, hrun⟩ := h.main_configuration hT hJ hcells hdep d
  refine ⟨_, ir, hrun, hc, fun ir' hc' => ?_⟩
  rw [eq_comm]
  exact command_eq_iff hT hs hR hc' hc

/-- **No two configurations share a command.** What `main` prints for one of the shipped documents
is the command of a configuration, and of no configuration with other options on or other values. -/
theorem main_stands_for_one (J : JsonC) (hJ : WholeDoubles J) (heap : Heap)
    (hcells : FreshCells mke2fsOptions heap) (hstray : (heap.node 3).dependencyId = []) :
    StandsForOne mke2fsOptions mke2fs_spec.forest J heap ∧
      StandsForOne resize2fsOptions resize2fs_spec.forest J heap :=
  ⟨mke2fs_plain.standsForOne mke2fs_spec mke2fs_shaped mke2fs_readable hJ hcells
      (noStrayDeps_mke2fs hstray),
    resize2fs_plain.standsForOne resize2fs_spec resize2fs_shaped resize2fs_readable hJ
      (freshCells_resize2fs hcells) (noStrayDeps_resize2fs heap)⟩

theorem plainHeap_stands_for_one :
    StandsForOne mke2fsOptions mke2fs_spec.forest wholeJsonC plainHeap ∧
      StandsForOne resize2fsOptions resize2fs_spec.forest wholeJsonC plainHeap :=
  main_stands_for_one wholeJsonC wholeDoubles_wholeJsonC plainHeap (fun _ _ => rfl) rfl

end ConFuzz
