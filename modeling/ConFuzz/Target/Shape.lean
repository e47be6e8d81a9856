import ConFuzz.Emit.Shipped
import ConFuzz.Model.Resize2fs

/-!
# Reading a command back

`optionsOf t ir` are the options that a configuration stands for: one for each
enabled root, with its value or with the list of its enabled children as the
argument, and one more for a child that is written into the same word.

`Shaped optstring t` is a check of the texts of a table against the `optstring`
of the program that gets the commands. For a table that passes it, splitting a
command at its blanks and reading the words with `getopt` gives back the options
of the configuration, without a `?` (`getopt_command`). The tables of the two
shipped documents pass it for the two programs.
-/

namespace ConFuzz

open ConFuzz.CLib ConFuzz.Config

/-! ## The options of a configuration -/

def letterOf (node : ArgNode) : Char := (node.arg.toList.drop 1).headD '?'

def HasValue (node : ArgNode) : Prop :=
  node.valueType = 1 ∨ node.valueType = 2 ∨ node.valueType = 3 ∨ node.valueType = 4

instance (node : ArgNode) : Decidable (HasValue node) := inferInstanceAs (Decidable (_ ∨ _))

def leafText (t : List ArgNode) (ir : List Ir) (i : Int) : String := (textsOf t ir).leaf i

def enabledChildren (node : ArgNode) (ir : List Ir) : List Int :=
  node.childId.filter fun c => On ir c

def rootOpts (t : List ArgNode) (ir : List Ir) (i : Int) : List Opt :=
  match at? t i, at? ir i with
  | some node, some cell =>
    if node.childId = [] then
      if HasValue node then [⟨letterOf node, some (valueText node cell).toList⟩]
      else [⟨letterOf node, none⟩]
    else if operatorText node.operatorChild ≠ "" then
      [⟨letterOf node, some (joinSep (leafText t ir) (textsOf t ir).sep
        (enabledChildren node ir)).toList⟩]
    else
      ⟨letterOf node, none⟩ ::
        (enabledChildren node ir).map fun c => ⟨(leafText t ir c).toList.headD '?', none⟩
  | _, _ => []

/-- The options that a configuration stands for. -/
def optionsOf (t : List ArgNode) (ir : List Ir) : List Opt :=
  (enabledRoots t ir t.length).flatMap (rootOpts t ir)

/-! ## Shapes -/

def Blanks (l : List Char) : Prop := ∀ c ∈ l, isBlank c = true

def Clean (l : List Char) : Prop := ∀ c ∈ l, isBlank c = false

instance (l : List Char) : Decidable (Blanks l) := inferInstanceAs (Decidable (∀ c ∈ l, _))

instance (l : List Char) : Decidable (Clean l) := inferInstanceAs (Decidable (∀ c ∈ l, _))

instance (w : Word) : Decidable (IsWord w) :=
  decidable_of_iff (w ≠ [] ∧ Clean w) ⟨fun h => ⟨h.1, h.2⟩, fun h => ⟨h.1, h.2⟩⟩

/-- The texts that a node can print as its value are words. -/
def ValueWords (node : ArgNode) : Prop :=
  (node.valueType = 3 → IsWord node.valueChar.toList) ∧
    (node.valueType = 4 → ∀ text ∈ node.valueCharArray, IsWord text.toList)

instance (node : ArgNode) : Decidable (ValueWords node) := inferInstanceAs (Decidable (_ ∧ _))

/-- The node is named by `-` and a character, and blanks may follow. -/
def NameShape (node : ArgNode) : Prop :=
  node.arg.toList = '-' :: letterOf node :: node.arg.toList.drop 2 ∧ letterOf node ≠ '-' ∧
    isBlank (letterOf node) = false ∧ Blanks (node.arg.toList.drop 2)

instance (node : ArgNode) : Decidable (NameShape node) := inferInstanceAs (Decidable (_ ∧ _))

/-- A child that is one element of a list. -/
def ElementShape (node : ArgNode) : Prop :=
  node.childId = [] ∧ IsWord (node.arg ++ operatorText node.operatorValue).toList ∧
    ValueWords node ∧ Clean (siblingText node).toList

instance (node : ArgNode) : Decidable (ElementShape node) := inferInstanceAs (Decidable (_ ∧ _))

def FlagChild (optstring : List Char) (node : ArgNode) : Prop :=
  node.childId = [] ∧ ¬ HasValue node ∧ operatorText node.operatorValue = "" ∧
    node.arg.toList = [node.arg.toList.headD '?'] ∧
    takesArg optstring (node.arg.toList.headD '?') = some false ∧
    isBlank (node.arg.toList.headD '?') = false

instance (optstring : List Char) (node : ArgNode) : Decidable (FlagChild optstring node) :=
  inferInstanceAs (Decidable (_ ∧ _))

def FlagShape (optstring : List Char) (node : ArgNode) : Prop :=
  node.childId = [] ∧ ¬ HasValue node ∧ takesArg optstring (letterOf node) = some false ∧
    Blanks (operatorText node.operatorValue).toList

def ValueShape (optstring : List Char) (node : ArgNode) : Prop :=
  node.childId = [] ∧ HasValue node ∧ takesArg optstring (letterOf node) = some true ∧
    Blanks (operatorText node.operatorValue).toList ∧ ValueWords node

def ListShape (optstring : List Char) (t : List ArgNode) (node : ArgNode) : Prop :=
  node.childId ≠ [] ∧ node.mustChild = true ∧ takesArg optstring (letterOf node) = some true ∧
    operatorText node.operatorChild ≠ "" ∧ Blanks (operatorText node.operatorChild).toList ∧
    ∀ c ∈ node.childId, (at? t c).all fun child => ElementShape child

/-- An option with a child in the same word. -/
def BundleShape (optstring : List Char) (t : List ArgNode) (node : ArgNode) : Prop :=
  node.childId.length = 1 ∧ takesArg optstring (letterOf node) = some false ∧
    operatorText node.operatorChild = "" ∧ node.arg.toList.drop 2 = [] ∧
    ∀ c ∈ node.childId, (at? t c).all fun child => FlagChild optstring child

instance (optstring : List Char) (node : ArgNode) : Decidable (FlagShape optstring node) :=
  inferInstanceAs (Decidable (_ ∧ _))

instance (optstring : List Char) (node : ArgNode) : Decidable (ValueShape optstring node) :=
  inferInstanceAs (Decidable (_ ∧ _))

instance (optstring : List Char) (t : List ArgNode) (node : ArgNode) :
    Decidable (ListShape optstring t node) := inferInstanceAs (Decidable (_ ∧ _))

instance (optstring : List Char) (t : List ArgNode) (node : ArgNode) :
    Decidable (BundleShape optstring t node) := inferInstanceAs (Decidable (_ ∧ _))

/-- A root that `getopt` reads as its options. -/
def RootShape (optstring : List Char) (t : List ArgNode) (node : ArgNode) : Prop :=
  NameShape node ∧ (siblingText node).toList ≠ [] ∧ Blanks (siblingText node).toList ∧
    (FlagShape optstring node ∨ ValueShape optstring node ∨ ListShape optstring t node ∨
      BundleShape optstring t node)

instance (optstring : List Char) (t : List ArgNode) (node : ArgNode) :
    Decidable (RootShape optstring t node) := inferInstanceAs (Decidable (_ ∧ _))

/-- Every node that is nobody's child has the shape of an option. -/
def Shaped (optstring : List Char) (t : List ArgNode) : Prop :=
  ∀ i ∈ ids t, (∀ p ∈ ids t, i ∉ (graphOf t).child p) →
    (at? t i).all fun node => RootShape optstring t node

instance (optstring : List Char) (t : List ArgNode) : Decidable (Shaped optstring t) :=
  inferInstanceAs (Decidable (∀ i ∈ ids t, _))

/-! ## Texts -/

section

variable {optstring : List Char} {t : List ArgNode} {ir : List Ir} {node : ArgNode} {cell : Ir}
  {i : Int}

theorem isWord_toString (n : Nat) : IsWord (toString n).toList := by
  rw [Nat.toString_eq_ofList_toDigits, String.toList_ofList]
  refine ⟨Nat.toDigits_ne_nil, fun c hc => ?_⟩
  have hdigit : c.isDigit = true := Nat.isDigit_of_mem_toDigits (by decide) (by decide) hc
  unfold isBlank
  rw [Bool.or_eq_false_iff, Bool.or_eq_false_iff]
  refine ⟨⟨?_, ?_⟩, ?_⟩ <;>
    · rw [beq_eq_false_iff_ne]
      rintro rfl
      exact absurd hdigit (by decide)

theorem isWord_valueText (hd : Documented node cell) (hv : HasValue node) (hw : ValueWords node) :
    IsWord (valueText node cell).toList := by
  rcases hv with h | h | h | h
  · rw [valueText, if_pos (.inl h)]
    exact isWord_toString _
  · rw [valueText, if_pos (.inr h)]
    exact isWord_toString _
  · rw [valueText, if_neg (by omega), if_pos (.inl h), hd.text h]
    exact hw.1 h
  · rw [valueText, if_neg (by omega), if_pos (.inr h)]
    exact hw.2 h _ (hd.texts h)

theorem valueText_of_not (hv : ¬ HasValue node) : valueText node cell = "" := by
  unfold HasValue at hv
  rw [valueText, if_neg (by omega), if_neg (by omega)]

theorem clean_valueText (hd : Documented node cell) (hw : ValueWords node) :
    Clean (valueText node cell).toList := by
  by_cases hv : HasValue node
  · exact (isWord_valueText hd hv hw).clean
  · rw [valueText_of_not hv]
    exact fun c hc => absurd hc List.not_mem_nil

theorem leafText_eq (hn : at? t i = some node) (hc : at? ir i = some cell) :
    leafText t ir i = node.arg ++ operatorText node.operatorValue ++ valueText node cell := by
  simp only [leafText, textsOf, hn, hc, Option.bind_some, Option.map_some, Option.getD_some]

theorem parses_arg {x : Char} {gap : List Char} {w : Word} (hx : x ≠ '-')
    (hb : isBlank x = false) (ht : takesArg optstring x = some true) (hg : Blanks gap)
    (hw : IsWord w) : Parses optstring (fields ('-' :: x :: (gap ++ w))) [⟨x, some w⟩] := by
  have hname : IsWord ['-', x] := by
    refine ⟨List.cons_ne_nil _ _, fun c hc => ?_⟩
    rcases List.mem_cons.1 hc with rfl | hc
    · rfl
    · rw [List.mem_singleton.1 hc]
      exact hb
  cases gap with
  | nil =>
    have hword : IsWord (['-', x] ++ w) := hname.append_left hw.clean
    rw [List.nil_append]
    rw [List.cons_append, List.singleton_append] at hword
    rw [fields_of_word hword]
    exact Parses.attached hx hw.ne_nil ht
  | cons c gap =>
    have hrest : Blanks gap := fun c' hc' => hg c' (List.mem_cons_of_mem c hc')
    have hsplit : fields (['-', x] ++ c :: (gap ++ w)) = [['-', x], w] := by
      rw [fields_append_blank (hg c List.mem_cons_self), fields_of_word hname,
        fields_blanks w hrest, fields_of_word hw]
      rfl
    rw [List.cons_append, List.singleton_append] at hsplit
    rw [List.cons_append, hsplit]
    exact Parses.separate hx ht

theorem parses_flags {x : Char} {cs gap : List Char} (hx : x ≠ '-')
    (hb : ∀ c ∈ x :: cs, isBlank c = false)
    (ht : ∀ c ∈ x :: cs, takesArg optstring c = some false) (hg : Blanks gap) :
    Parses optstring (fields ('-' :: x :: cs ++ gap)) ((x :: cs).map fun c => ⟨c, none⟩) := by
  have hword : IsWord ('-' :: x :: cs) := by
    refine ⟨List.cons_ne_nil _ _, fun c hc => ?_⟩
    rcases List.mem_cons.1 hc with rfl | hc
    · rfl
    · exact hb c hc
  rw [fields_append_blanks hg, fields_of_word hword]
  exact Parses.flags hx ht

theorem isWord_joinSep {text sep : Int → String} : ∀ {l : List Int}, l ≠ [] →
    (∀ c ∈ l, IsWord (text c).toList) → (∀ c ∈ l, Clean (sep c).toList) →
    IsWord (joinSep text sep l).toList
  | [], hne, _, _ => absurd rfl hne
  | [c], _, ht, _ => ht c List.mem_cons_self
  | c :: c' :: l, _, ht, hs => by
    have hrest := isWord_joinSep (List.cons_ne_nil c' l)
      (fun x hx => ht x (List.mem_cons_of_mem c hx)) (fun x hx => hs x (List.mem_cons_of_mem c hx))
    rw [joinSep, String.toList_append, String.toList_append, List.append_assoc]
    refine (ht c List.mem_cons_self).append_left fun x hx => ?_
    rcases List.mem_append.1 hx with hx | hx
    · exact hs c List.mem_cons_self x hx
    · exact hrest.clean x hx

/-! ## A root is read as its options -/

theorem exists_leaf (hT : SpecTable t) (hc : Configuration t ir) {c : Int}
    (hchild : c ∈ node.childId) (hn : node ∈ t) :
    ∃ child cell, at? t c = some child ∧ at? ir c = some cell := by
  have hin := hT.ids.child node hn c hchild
  obtain ⟨child, hchild⟩ := at?_of_inTable hin rfl
  obtain ⟨cell, hcell⟩ := at?_of_inTable hin hc.length
  exact ⟨child, cell, hchild, hcell⟩

theorem isWord_element (hc : Configuration t ir) {c : Int} {child : ArgNode} (hon : On ir c)
    (hn : at? t c = some child) (hcell : at? ir c = some cell) (hs : ElementShape child) :
    IsWord (leafText t ir c).toList := by
  obtain ⟨-, hw, hv, -⟩ := hs
  rw [leafText_eq hn hcell, String.toList_append]
  exact hw.append_left (clean_valueText (hc.values c child cell hon hn hcell) hv)

theorem render_children (hT : SpecTable t) (hn : at? t i = some node) (hne : node.childId ≠ [])
    (hleaf : ∀ c ∈ node.childId, (graphOf t).child c = []) :
    hT.forest.forest.render (textsOf t ir) i = node.arg ++ operatorText node.operatorChild ++
      joinSep (leafText t ir) (textsOf t ir).sep (enabledChildren node ir) := by
  have hchild : hT.forest.forest.child i = node.childId := graphOf_child hn
  have hhead : (textsOf t ir).head i = node.arg ++ operatorText node.operatorChild := by
    simp only [textsOf, hn, Option.map_some, Option.getD_some]
  rw [Forest.render_node (by rw [hchild]; exact hne), hhead, hchild]
  refine congrArg _ (joinSep_congr fun c hcm => ⟨?_, rfl⟩)
  exact Forest.render_leaf (hleaf c (List.mem_filter.1 hcm).1)

theorem Blanks.append {l l' : List Char} (h : Blanks l) (h' : Blanks l') : Blanks (l ++ l') :=
  fun c hc => (List.mem_append.1 hc).elim (h c) (h' c)

theorem render_childless (hT : SpecTable t) (hn : at? t i = some node) (hnil : node.childId = []) :
    hT.forest.forest.render (textsOf t ir) i = leafText t ir i :=
  Forest.render_leaf ((graphOf_child hn).trans hnil)

theorem parses_flag (hT : SpecTable t) (hn : at? t i = some node) (hcell : at? ir i = some cell)
    (hname : NameShape node) (hs : FlagShape optstring node) :
    Parses optstring (fields (hT.forest.forest.render (textsOf t ir) i).toList)
      (rootOpts t ir i) := by
  obtain ⟨harg, hx, hxb, hpad⟩ := hname
  obtain ⟨hnil, hv, ht, hop⟩ := hs
  unfold rootOpts
  simp only [hn, hcell]
  rw [render_childless hT hn hnil, if_pos hnil, if_neg hv, leafText_eq hn hcell,
    valueText_of_not hv, String.append_empty, String.toList_append, harg]
  exact parses_flags hx (List.forall_mem_singleton.2 hxb) (List.forall_mem_singleton.2 ht)
    (hpad.append hop)

theorem parses_value (hT : SpecTable t) (hn : at? t i = some node) (hcell : at? ir i = some cell)
    (hdoc : Documented node cell) (hname : NameShape node) (hs : ValueShape optstring node) :
    Parses optstring (fields (hT.forest.forest.render (textsOf t ir) i).toList)
      (rootOpts t ir i) := by
  obtain ⟨harg, hx, hxb, hpad⟩ := hname
  obtain ⟨hnil, hv, ht, hop, hw⟩ := hs
  unfold rootOpts
  simp only [hn, hcell]
  rw [render_childless hT hn hnil, if_pos hnil, if_pos hv, leafText_eq hn hcell,
    String.toList_append, String.toList_append, harg]
  exact parses_arg hx hxb ht (hpad.append hop) (isWord_valueText hdoc hv hw)

theorem ListShape.element (hT : SpecTable t) (hc : Configuration t ir) (hmem : node ∈ t)
    (hs : ListShape optstring t node) {c : Int} (hcm : c ∈ node.childId) :
    ∃ child cell, at? t c = some child ∧ at? ir c = some cell ∧ ElementShape child := by
  obtain ⟨-, -, -, -, -, helement⟩ := hs
  obtain ⟨child, cell, hchild, hcell⟩ := exists_leaf hT hc hcm hmem
  have h := helement c hcm
  rw [hchild] at h
  exact ⟨child, cell, hchild, hcell, of_decide_eq_true h⟩

theorem ListShape.isWord (hT : SpecTable t) (hc : Configuration t ir) (hn : at? t i = some node)
    (hon : On ir i) (hs : ListShape optstring t node) :
    IsWord (joinSep (leafText t ir) (textsOf t ir).sep (enabledChildren node ir)).toList := by
  have helement := fun c => hs.element hT hc (mem_of_at? hn) (c := c)
  obtain ⟨hne, hm, -⟩ := hs
  have hsome : enabledChildren node ir ≠ [] := by
    obtain ⟨c, hcm, hcon⟩ := hc.valid.child i hon (by rw [graphOf_mustChild hn]; exact hm)
      (by rw [graphOf_child hn]; exact hne)
    rw [graphOf_child hn] at hcm
    exact List.ne_nil_of_mem (List.mem_filter.2 ⟨hcm, decide_eq_true hcon⟩)
  refine isWord_joinSep hsome (fun c hcm => ?_) (fun c hcm => ?_)
  · obtain ⟨hcm, hcon⟩ := List.mem_filter.1 hcm
    obtain ⟨child, cell, hchild, hcell, hshape⟩ := helement c hcm
    exact isWord_element hc (of_decide_eq_true hcon) hchild hcell hshape
  · obtain ⟨hcm, -⟩ := List.mem_filter.1 hcm
    obtain ⟨child, -, hchild, -, hshape⟩ := helement c hcm
    have hsep : (textsOf t ir).sep c = siblingText child := by
      simp only [textsOf, hchild, Option.map_some, Option.getD_some]
    rw [hsep]
    exact hshape.2.2.2

theorem parses_list (hT : SpecTable t) (hc : Configuration t ir) (hn : at? t i = some node)
    (hcell : at? ir i = some cell) (hon : On ir i) (hname : NameShape node)
    (hs : ListShape optstring t node) :
    Parses optstring (fields (hT.forest.forest.render (textsOf t ir) i).toList)
      (rootOpts t ir i) := by
  have hword := hs.isWord hT hc hn hon
  have hleaf : ∀ c ∈ node.childId, (graphOf t).child c = [] := by
    intro c hcm
    obtain ⟨child, -, hchild, -, hshape⟩ := hs.element hT hc (mem_of_at? hn) hcm
    rw [graphOf_child hchild]
    exact hshape.1
  obtain ⟨harg, hx, hxb, hpad⟩ := hname
  obtain ⟨hne, -, ht, hop, hopb, -⟩ := hs
  unfold rootOpts
  simp only [hn, hcell]
  rw [render_children hT hn hne hleaf, if_neg hne, if_pos hop, String.toList_append,
    String.toList_append, harg]
  exact parses_arg hx hxb ht (hpad.append hopb) hword

theorem BundleShape.child (hT : SpecTable t) (hc : Configuration t ir) (hmem : node ∈ t)
    (hs : BundleShape optstring t node) : ∃ c child cell, node.childId = [c] ∧
      at? t c = some child ∧ at? ir c = some cell ∧ FlagChild optstring child := by
  obtain ⟨hone, -, -, -, hchild⟩ := hs
  obtain ⟨c, hsingle⟩ := List.length_eq_one_iff.1 hone
  have hcm : c ∈ node.childId := by rw [hsingle]; exact List.mem_cons_self
  obtain ⟨child, cell, hn, hcell⟩ := exists_leaf hT hc hcm hmem
  have h := hchild c hcm
  rw [hn] at h
  exact ⟨c, child, cell, hsingle, hn, hcell, of_decide_eq_true h⟩

theorem parses_bundle (hT : SpecTable t) (hc : Configuration t ir) (hn : at? t i = some node)
    (hcell : at? ir i = some cell) (hname : NameShape node) (hs : BundleShape optstring t node) :
    Parses optstring (fields (hT.forest.forest.render (textsOf t ir) i).toList)
      (rootOpts t ir i) := by
  obtain ⟨c, child, ccell, hsingle, hcn, hcc, hcnil, hcv, hcop, hcarg, hct, hcb⟩ :=
    hs.child hT hc (mem_of_at? hn)
  obtain ⟨harg, hx, hxb, -⟩ := hname
  obtain ⟨-, ht, hop, hpadnil, -⟩ := hs
  have hne : node.childId ≠ [] := by rw [hsingle]; exact List.cons_ne_nil _ _
  have hleaf : ∀ c' ∈ node.childId, (graphOf t).child c' = [] := by
    intro c' hc'
    rw [hsingle, List.mem_singleton] at hc'
    rw [hc', graphOf_child hcn]
    exact hcnil
  have htext : (leafText t ir c).toList = [child.arg.toList.headD '?'] := by
    rw [leafText_eq hcn hcc, valueText_of_not hcv, hcop, String.append_empty, String.append_empty]
    exact hcarg
  have hnone : Blanks [] := fun y hy => absurd hy List.not_mem_nil
  unfold rootOpts
  simp only [hn, hcell]
  rw [render_children hT hn hne hleaf, if_neg hne, if_neg (by rw [hop]; exact fun h => h rfl),
    hop, String.append_empty, String.toList_append, harg, hpadnil]
  by_cases hcon : On ir c
  · have hchildren : enabledChildren node ir = [c] := by
      rw [enabledChildren, hsingle]
      exact List.filter_cons_of_pos (decide_eq_true hcon)
    rw [hchildren, joinSep, htext, List.map_singleton, htext]
    exact parses_flags hx (List.forall_mem_cons.2 ⟨hxb, List.forall_mem_singleton.2 hcb⟩)
      (List.forall_mem_cons.2 ⟨ht, List.forall_mem_singleton.2 hct⟩) hnone
  · have hchildren : enabledChildren node ir = [] := by
      rw [enabledChildren, hsingle]
      exact List.filter_cons_of_neg (by simpa using hcon)
    rw [hchildren]
    exact parses_flags hx (List.forall_mem_singleton.2 hxb) (List.forall_mem_singleton.2 ht) hnone

/-- **A root is read as its options.** -/
theorem parses_root (hT : SpecTable t) (hc : Configuration t ir) (hn : at? t i = some node)
    (hon : On ir i) (hs : RootShape optstring t node) :
    Parses optstring (fields (hT.forest.forest.render (textsOf t ir) i).toList)
      (rootOpts t ir i) := by
  obtain ⟨cell, hcell, -⟩ := enableOf_eq_some.1 hon
  obtain ⟨hname, -, -, hflag | hvalue | hlist | hbundle⟩ := hs
  · exact parses_flag hT hn hcell hname hflag
  · exact parses_value hT hn hcell (hc.values i node cell hon hn hcell) hname hvalue
  · exact parses_list hT hc hn hcell hon hname hlist
  · exact parses_bundle hT hc hn hcell hname hbundle

/-- **A command is read back.** Split at its blanks and followed by the operand, the command of a
configuration is read as the options of the configuration. -/
theorem getopt_command (hT : SpecTable t) (hs : Shaped optstring t) (hc : Configuration t ir)
    {device : Word} (hd : device.head? ≠ some '-') :
    getopt optstring none (fields (hT.forest.command ir).toList ++ [device]) =
      (optionsOf t ir, [device]) := by
  let words (r : Int) := fields (hT.forest.forest.render (textsOf t ir) r).toList
  have hroot : ∀ r ∈ enabledRoots t ir t.length,
      ∃ node, at? t r = some node ∧ On ir r ∧ RootShape optstring t node := by
    intro r hr
    obtain ⟨hr, hon⟩ := List.mem_filter.1 hr
    obtain ⟨hon, hnot⟩ := of_decide_eq_true hon
    obtain ⟨node, hn⟩ := at?_of_inTable (hc.valid.node r hon) rfl
    have h := hs r (mem_ids.2 (hc.valid.node r hon)) hnot
    rw [hn] at h
    exact ⟨node, hn, hon, of_decide_eq_true h⟩
  have hfields : fields (hT.forest.command ir).toList =
      (enabledRoots t ir t.length).flatMap words := by
    have hsp : ∀ c ∈ [' '], isBlank c = true := by decide
    have hstart : (hT.forest.command ir).toList = [' '] ++
        (enabledRoots t ir t.length).flatMap fun r =>
          (hT.forest.forest.render (textsOf t ir) r ++ (textsOf t ir).sep r).toList := by
      rw [ForestTable.command, String.toList_append, String.toList_join, List.flatMap_map]
      rfl
    rw [hstart, fields_blanks _ hsp]
    refine fields_flatMap fun r hr => ?_
    obtain ⟨node, hn, -, -, hne, hb, -⟩ := hroot r hr
    have hsep : (textsOf t ir).sep r = siblingText node := by
      simp only [textsOf, hn, Option.map_some, Option.getD_some]
    -- the last blank ends the text, the ones before it make no field
    obtain ⟨init, c, hsplit⟩ := List.eq_nil_or_concat' (siblingText node).toList |>.resolve_left hne
    rw [hsplit] at hb
    refine ⟨_ ++ init, c, ?_, hb c (by simp), fields_append_blanks fun c' hc' => hb c' ?_⟩
    · rw [String.toList_append, hsep, hsplit, List.append_assoc]
    · exact List.mem_append_left _ hc'
  have hparse : Parses optstring ((enabledRoots t ir t.length).flatMap words) (optionsOf t ir) := by
    refine Parses.flatMap fun r hr => ?_
    obtain ⟨node, hn, hon, hshape⟩ := hroot r hr
    exact parses_root hT hc hn hon hshape
  rw [hfields, hparse [device], getopt_operand hd, List.append_nil]

end

theorem mke2fs_shaped : Shaped Mke2fs.optstring (tableOf mke2fsOptions) := by decide +kernel

theorem resize2fs_shaped : Shaped Resize2fs.optstring (tableOf resize2fsOptions) := by
  decide +kernel

end ConFuzz
