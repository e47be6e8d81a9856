import ConFuzz.Target.Shape

/-!
# Options one by one

`optionsOf` of a table is the concatenation of the options of its roots
(`optionsOf_eq`), so a program that reads them in a loop runs through the
segments of the roots. For each kind of root there is a rule for its segment:
`run_number`, `run_choice`, `run_flag` and `run_list`.

The argument of a root with a list is taken apart into the texts of the enabled
children (`tokens_listText`), and each of them into a name and an argument
(`optionTokens_listArg`).
-/

namespace ConFuzz

open ConFuzz.CLib ConFuzz.Config

def number (ir : List Ir) (i : Int) : Nat := ((at? ir i).map Ir.valueInt).getD 0

def choice (ir : List Ir) (i : Int) : Word :=
  ((at? ir i).map fun cell => cell.valueChar.toList).getD []

def listText (t : List ArgNode) (ir : List Ir) (node : ArgNode) : Word :=
  (joinSep (leafText t ir) (textsOf t ir).sep (enabledChildren node ir)).toList

def listArg (t : List ArgNode) (ir : List Ir) (i : Int) : Word :=
  ((at? t i).map (listText t ir)).getD []

def roots (t : List ArgNode) : List Int :=
  (ids t).filter fun i => ∀ p ∈ ids t, i ∉ (graphOf t).child p

def NodeAt (t : List ArgNode) (i : Int) (p : ArgNode → Prop) : Prop :=
  ∃ node, at? t i = some node ∧ p node

instance (t : List ArgNode) (i : Int) (p : ArgNode → Prop) [DecidablePred p] :
    Decidable (NodeAt t i p) :=
  decidable_of_iff ((at? t i).any (p ·) = true) (by
    unfold NodeAt
    cases at? t i <;> simp)

/-- The options of a root, and none when it is off. -/
def segment (t : List ArgNode) (ir : List Ir) (i : Int) : List Opt :=
  if On ir i then rootOpts t ir i else []

section

variable {t : List ArgNode} {ir : List Ir} {node : ArgNode} {cell : Ir} {i : Int}

theorem flatMap_enabled {α : Type} (f : Int → List α) (l : List Int) :
    (l.filter fun r => On ir r).flatMap f = l.flatMap fun r => if On ir r then f r else [] := by
  induction l with
  | nil => rfl
  | cons r l ih =>
    rw [List.flatMap_cons, ← ih]
    by_cases hr : On ir r
    · simp only [List.filter_cons, hr, decide_true, if_true, List.flatMap_cons]
    · simp only [List.filter_cons, hr, decide_false, Bool.false_eq_true, if_false, List.nil_append]

theorem optionsOf_eq : optionsOf t ir = (roots t).flatMap (segment t ir) := by
  have hroots : enabledRoots t ir t.length = (roots t).filter fun r => On ir r := by
    unfold enabledRoots roots ids
    rw [List.filter_filter]
    simp only [Bool.decide_and]
  rw [optionsOf, hroots]
  exact flatMap_enabled _ _

/-! ## Segments -/

/-- What a root is to the program. -/
inductive Kind where
  | number
  | choice
  | flag
  | list
  deriving DecidableEq

def IsRoot (x : Char) (kind : Kind) (node : ArgNode) : Prop :=
  letterOf node = x ∧
    match kind with
    | .number => node.childId = [] ∧ (node.valueType = 1 ∨ node.valueType = 2)
    | .choice => node.childId = [] ∧ (node.valueType = 3 ∨ node.valueType = 4)
    | .flag => node.childId = [] ∧ ¬ HasValue node
    | .list => node.childId ≠ [] ∧ operatorText node.operatorChild ≠ ""

instance (x : Char) : (kind : Kind) → DecidablePred (IsRoot x kind)
  | .number, _ => inferInstanceAs (Decidable (_ ∧ _ ∧ _))
  | .choice, _ => inferInstanceAs (Decidable (_ ∧ _ ∧ _))
  | .flag, _ => inferInstanceAs (Decidable (_ ∧ _ ∧ _))
  | .list, _ => inferInstanceAs (Decidable (_ ∧ _ ∧ _))

section

variable {σ ε : Type} {body : σ → Opt → Except ε σ} {s s' : σ} {x : Char}

/-- A root that is off does nothing. -/
theorem run_segment (hoff : ¬ On ir i → s' = s)
    (hon : On ir i → (rootOpts t ir i).foldlM body s = .ok s') :
    (segment t ir i).foldlM body s = .ok s' := by
  unfold segment
  split
  · next h => exact hon h
  · next h => rw [hoff h]; rfl

theorem foldlM_singleton {α : Type} {body : σ → α → Except ε σ} {a : α} :
    [a].foldlM body s = body s a := by
  rw [List.foldlM_cons]
  cases body s a <;> rfl

theorem run_number (hn : NodeAt t i (IsRoot x .number)) (hoff : ¬ On ir i → s' = s)
    (hon : On ir i → body s ⟨x, some (toString (number ir i)).toList⟩ = .ok s') :
    (segment t ir i).foldlM body s = .ok s' := by
  obtain ⟨node, hn, hx, hl, hv⟩ := hn
  refine run_segment hoff fun h => ?_
  obtain ⟨cell, hcell, -⟩ := enableOf_eq_some.1 h
  have hon := hon h
  rw [number, hcell] at hon
  have hvalue : HasValue node := hv.elim .inl fun h => .inr (.inl h)
  rw [rootOpts, hn, hcell]
  simp only [if_pos hl, if_pos hvalue]
  rw [foldlM_singleton, hx, valueText, if_pos hv]
  exact hon

theorem run_choice (hn : NodeAt t i (IsRoot x .choice)) (hoff : ¬ On ir i → s' = s)
    (hon : On ir i → body s ⟨x, some (choice ir i)⟩ = .ok s') :
    (segment t ir i).foldlM body s = .ok s' := by
  obtain ⟨node, hn, hx, hl, hv⟩ := hn
  refine run_segment hoff fun h => ?_
  obtain ⟨cell, hcell, -⟩ := enableOf_eq_some.1 h
  have hon := hon h
  rw [choice, hcell] at hon
  have hvalue : HasValue node := .inr (.inr hv)
  rw [rootOpts, hn, hcell]
  simp only [if_pos hl, if_pos hvalue]
  rw [foldlM_singleton, hx, valueText, if_neg (by omega), if_pos hv]
  exact hon

theorem run_flag (hn : NodeAt t i (IsRoot x .flag)) (hoff : ¬ On ir i → s' = s)
    (hon : On ir i → body s ⟨x, none⟩ = .ok s') :
    (segment t ir i).foldlM body s = .ok s' := by
  obtain ⟨node, hn, hx, hl, hv⟩ := hn
  refine run_segment hoff fun h => ?_
  obtain ⟨cell, hcell, -⟩ := enableOf_eq_some.1 h
  rw [rootOpts, hn, hcell]
  simp only [if_pos hl, if_neg hv]
  rw [foldlM_singleton, hx]
  exact hon h

theorem run_list (hn : NodeAt t i (IsRoot x .list)) (hoff : ¬ On ir i → s' = s)
    (hon : On ir i → body s ⟨x, some (listArg t ir i)⟩ = .ok s') :
    (segment t ir i).foldlM body s = .ok s' := by
  obtain ⟨node, hn, hx, hl, hop⟩ := hn
  refine run_segment hoff fun h => ?_
  obtain ⟨cell, hcell, -⟩ := enableOf_eq_some.1 h
  have hon := hon h
  rw [listArg, hn] at hon
  rw [rootOpts, hn, hcell]
  simp only [if_neg hl, if_pos hop]
  rw [foldlM_singleton, hx]
  exact hon

end

/-! ## Values -/

theorem number_arithmetic (hc : Configuration t ir) {a b c : Nat}
    (hn : NodeAt t i fun node => node.valueType = 1 ∧ node.valueInt = [a, b, c]) (h : On ir i) :
    ∃ m, number ir i = a + m * c ∧ a + m * c ≤ b := by
  obtain ⟨node, hn, hv, hints⟩ := hn
  obtain ⟨cell, hcell, -⟩ := enableOf_eq_some.1 h
  have hd := (hc.values i node cell h hn hcell).arithmetic a b c hv hints
  rw [number, hcell]
  exact hd

theorem number_geometric (hc : Configuration t ir) {a b c f : Nat}
    (hn : NodeAt t i fun node => node.valueType = 2 ∧ node.valueInt = [a, b, c, f]) (h : On ir i) :
    ∃ e, b ≤ e ∧ e ≤ c ∧ number ir i = a ^ e * f := by
  obtain ⟨node, hn, hv, hints⟩ := hn
  obtain ⟨cell, hcell, -⟩ := enableOf_eq_some.1 h
  have hd := (hc.values i node cell h hn hcell).geometric a b c f hv hints
  rw [number, hcell]
  exact hd

theorem choice_text (hc : Configuration t ir) {text : String}
    (hn : NodeAt t i fun node => node.valueType = 3 ∧ node.valueChar = text) (h : On ir i) :
    choice ir i = text.toList := by
  obtain ⟨node, hn, hv, htext⟩ := hn
  obtain ⟨cell, hcell, -⟩ := enableOf_eq_some.1 h
  have hd := (hc.values i node cell h hn hcell).text hv
  rw [choice, hcell, ← htext, ← hd]
  rfl

/-! ## Lists -/

theorem toList_joinSep {text sep : Int → String} : ∀ {l : List Int}, (∀ c ∈ l, sep c = ",") →
    (joinSep text sep l).toList = [','].intercalate (l.map fun c => (text c).toList)
  | [], _ => rfl
  | [c], _ => by
    rw [joinSep, List.map_singleton, List.intercalate_singleton]
  | c :: c' :: l, h => by
    have ih := @toList_joinSep text sep (c' :: l) fun x hx => h x (List.mem_cons_of_mem c hx)
    rw [joinSep, String.toList_append, String.toList_append, ih, h c List.mem_cons_self,
      List.map_cons, List.map_cons, List.map_cons, List.intercalate_cons_cons]
    rfl

theorem tokens_listText {skip stop : Char → Bool} (hstop : stop ',' = true)
    (h : ∀ c ∈ enabledChildren node ir, (textsOf t ir).sep c = "," ∧
      IsToken skip stop (leafText t ir c).toList) :
    tokens skip stop (listText t ir node) =
      (enabledChildren node ir).map fun c => (leafText t ir c).toList := by
  rw [listText, toList_joinSep fun c hc => (h c hc).1]
  refine tokens_intercalate hstop fun w hw => ?_
  obtain ⟨c, hc, rfl⟩ := List.mem_map.1 hw
  exact (h c hc).2

def elementName (node : ArgNode) : Word :=
  if HasValue node then node.arg.toList.dropLast else node.arg.toList

def elementArg (node : ArgNode) (cell : Ir) : Option Word :=
  if HasValue node then some (valueText node cell).toList else none

/-- The node prints as an element `name` or `name=value` of a list with commas. -/
def NamedShape (node : ArgNode) : Prop :=
  operatorText node.operatorValue = "" ∧ siblingText node = "," ∧ elementName node ≠ [] ∧
    (∀ c ∈ elementName node, c ≠ '=' ∧ c ≠ ',') ∧
    (HasValue node → node.arg.toList = elementName node ++ ['=']) ∧
    (node.valueType = 3 → ',' ∉ node.valueChar.toList) ∧
    (node.valueType = 4 → ∀ text ∈ node.valueCharArray, ',' ∉ text.toList)

instance (node : ArgNode) : Decidable (NamedShape node) := inferInstanceAs (Decidable (_ ∧ _))

theorem comma_not_mem_valueText (hd : Documented node cell)
    (h3 : node.valueType = 3 → ',' ∉ node.valueChar.toList)
    (h4 : node.valueType = 4 → ∀ text ∈ node.valueCharArray, ',' ∉ text.toList) :
    ',' ∉ (valueText node cell).toList := by
  unfold valueText
  split
  · intro h
    exact absurd (isDigit_of_mem_toString h) (by decide)
  · split
    · next h =>
      rcases h with h | h
      · rw [hd.text h]
        exact h3 h
      · exact h4 h _ (hd.texts h)
    · exact List.not_mem_nil

theorem NamedShape.leaf (hs : NamedShape node) (hd : Documented node cell)
    (hn : at? t i = some node) (hcell : at? ir i = some cell) :
    IsToken (fun _ => false) (· == ',') (leafText t ir i).toList ∧
      splitArg (leafText t ir i).toList = (elementName node, elementArg node cell) := by
  obtain ⟨hop, -, hne, hname, harg, h3, h4⟩ := hs
  have heq : '=' ∉ elementName node := fun h => (hname _ h).1 rfl
  have hcomma := comma_not_mem_valueText hd h3 h4
  have hclean : ∀ c : Char, c ≠ ',' → (fun _ => false) c = false ∧ (c == ',') = false := fun c hc =>
    ⟨rfl, beq_eq_false_iff_ne.2 hc⟩
  rw [leafText_eq hn hcell, hop, String.append_empty, String.toList_append]
  by_cases hv : HasValue node
  · rw [harg hv, List.append_assoc, List.singleton_append, elementArg, if_pos hv]
    refine ⟨⟨List.append_ne_nil_of_left_ne_nil hne _, fun c hc => hclean c ?_⟩,
      splitArg_append heq⟩
    rcases List.mem_append.1 hc with hc | hc
    · exact (hname c hc).2
    · rcases List.mem_cons.1 hc with rfl | hc
      · decide
      · rintro rfl
        exact hcomma hc
  · have hplain : node.arg.toList = elementName node := by rw [elementName, if_neg hv]
    rw [valueText_of_not hv, String.toList_empty, List.append_nil, hplain, elementArg, if_neg hv]
    exact ⟨⟨hne, fun c hc => hclean c (hname c hc).2⟩, splitArg_plain heq⟩

def elementOf (t : List ArgNode) (ir : List Ir) (c : Int) : Word × Option Word :=
  match at? t c, at? ir c with
  | some node, some cell => (elementName node, elementArg node cell)
  | _, _ => ([], none)

theorem elementOf_number {name : Word} (hn : NodeAt t i fun node => elementName node = name ∧
    (node.valueType = 1 ∨ node.valueType = 2)) (h : On ir i) :
    elementOf t ir i = (name, some (toString (number ir i)).toList) := by
  obtain ⟨node, hn, hname, hv⟩ := hn
  obtain ⟨cell, hcell, -⟩ := enableOf_eq_some.1 h
  have hvalue : HasValue node := hv.elim .inl fun h => .inr (.inl h)
  simp only [elementOf, hn, hcell, hname, elementArg, hvalue, if_true, valueText, hv, number,
    Option.map_some, Option.getD_some]

theorem elementOf_choice {name : Word} (hn : NodeAt t i fun node => elementName node = name ∧
    (node.valueType = 3 ∨ node.valueType = 4)) (h : On ir i) :
    elementOf t ir i = (name, some (choice ir i)) := by
  obtain ⟨node, hn, hname, hv⟩ := hn
  obtain ⟨cell, hcell, -⟩ := enableOf_eq_some.1 h
  have hvalue : HasValue node := .inr (.inr hv)
  have hnot : ¬ (node.valueType = 1 ∨ node.valueType = 2) := by omega
  simp only [elementOf, hn, hcell, hname, elementArg, hvalue, if_true, valueText, hnot, if_false,
    hv, choice, Option.map_some, Option.getD_some]

theorem elementOf_plain {name : Word} (hn : NodeAt t i fun node => elementName node = name ∧
    ¬ HasValue node) (h : On ir i) : elementOf t ir i = (name, none) := by
  obtain ⟨node, hn, hname, hv⟩ := hn
  obtain ⟨cell, hcell, -⟩ := enableOf_eq_some.1 h
  simp only [elementOf, hn, hcell, hname, elementArg, hv, if_false]

/-- The list of a node is taken apart into the names and arguments of its enabled children. -/
theorem optionTokens_listArg (hc : Configuration t ir) {children : List Int}
    (hn : NodeAt t i fun node => node.childId = children)
    (hs : ∀ c ∈ children, NodeAt t c NamedShape) :
    Mke2fs.optionTokens (listArg t ir i) =
      (children.filter fun c => On ir c).map (elementOf t ir) := by
  obtain ⟨node, hn, rfl⟩ := hn
  have hleaf : ∀ c ∈ enabledChildren node ir, ∃ child cell, at? t c = some child ∧
      at? ir c = some cell ∧ NamedShape child ∧ Documented child cell := by
    intro c hmem
    obtain ⟨hmem, hon⟩ := List.mem_filter.1 hmem
    have hon := of_decide_eq_true hon
    obtain ⟨child, hn, hshape⟩ := hs c hmem
    obtain ⟨cell, hcell, -⟩ := enableOf_eq_some.1 hon
    exact ⟨child, cell, hn, hcell, hshape, hc.values c child cell hon hn hcell⟩
  rw [Mke2fs.optionTokens, listArg, hn, Option.map_some, Option.getD_some, tokens_listText (by rfl),
    List.map_map]
  · refine List.map_congr_left fun c hmem => ?_
    obtain ⟨child, cell, hn, hcell, hshape, hd⟩ := hleaf c hmem
    rw [elementOf, hn, hcell]
    exact (hshape.leaf hd hn hcell).2
  · intro c hmem
    obtain ⟨child, cell, hn, hcell, hshape, hd⟩ := hleaf c hmem
    refine ⟨?_, (hshape.leaf hd hn hcell).1⟩
    simp only [textsOf, hn, Option.map_some, Option.getD_some]
    exact hshape.2.1

end

end ConFuzz
