import ConFuzz.Emit.Trace
import ConFuzz.Load.Shipped
import ConFuzz.Resolve.Values
import Mathlib.Algebra.Order.BigOperators.Group.List
import Mathlib.Algebra.Order.Group.Nat

/-!
# The length of a command

The appends of the emission loop are not checked. `commandWidth` bounds both
buffers at every moment: a node adds its texts once, and what leaves `branch`
goes to `cmd`. For the shipped specifications it is at most 677 and 73, so no
write leaves the buffers of 1024 bytes.
-/

namespace ConFuzz

open ConFuzz.CLib

def maxCmdLen : Nat := 1024

def maxBranchLen : Nat := 1024

/-- The text of a buffer and the byte 0 after it stay inside the buffer. -/
def Event.Fits : Event → Prop
  | .visit _ => True
  | .branch text => bytes text + 1 ≤ maxBranchLen
  | .cmd text => bytes text + 1 ≤ maxCmdLen

theorem Event.AtMost.fits {n : Nat} {e : Event} (h : e.AtMost n) (hn : n + 1 ≤ 1024) :
    e.Fits := by
  cases e with
  | visit id => trivial
  | branch text => exact Nat.le_trans (Nat.succ_le_succ h) hn
  | cmd text => exact Nat.le_trans (Nat.succ_le_succ h) hn

def commandWidth (t : List ArgNode) (ir : List Ir) : Nat :=
  (((ids t).filter fun i => On ir i).map (widthAt t ir)).sum

theorem nodup_ids (t : List ArgNode) : (ids t).Nodup :=
  List.Nodup.map (fun _ _ h => Int.ofNat.inj h) List.nodup_range

theorem sum_visits {t : List ArgNode} {ir : List Ir} {visited : List Int}
    (hl : ir.length = t.length) (hnd : visited.Nodup) (hmem : ∀ i, i ∈ visited ↔ On ir i) :
    (visited.map (widthAt t ir)).sum = commandWidth t ir := by
  have hperm : visited.Perm ((ids t).filter fun i => On ir i) := by
    refine (List.perm_ext_iff_of_nodup hnd ((nodup_ids t).filter _)).2 fun i => ?_
    rw [hmem, List.mem_filter, mem_ids, decide_eq_true_iff]
    constructor
    · intro hon
      obtain ⟨h0, h1⟩ := range_of_enableOf hon
      exact ⟨⟨h0, by omega⟩, hon⟩
    · exact fun h => h.2
  exact (hperm.map _).sum_eq

/-- The bound on both buffers. -/
theorem emitLoopLog_width {t : List ArgNode} (stale : Int → Int)
    (ht : ∀ node ∈ t, ∀ c ∈ node.childId, InTable t c) {ir : List Ir}
    (hl : ir.length = t.length) :
    ∃ o, emitLoopLog t stale t.length ir "" = .ok o ∧
      emitLoop t stale t.length ir "" = .ok o.toOutput ∧
      ∀ e ∈ o.log, e.AtMost (1 + commandWidth t ir) := by
  obtain ⟨o, ho, hout, hI, hmem⟩ :=
    emitLoopLog_once stale (covers_widthAt t ir) ht hl ""
  refine ⟨o, ho, hout, fun e he => ?_⟩
  have h := hI.log e he
  rwa [sum_visits hl hI.visits.nodup hmem] at h

/-! ## Printed values -/

theorem bytes_digit {n : Nat} (h : n < 10) : bytes (.singleton (Nat.digitChar n)) = 1 := by
  have hsize : ∀ n < 10, (Nat.digitChar n).utf8Size = 1 := by decide
  rw [bytes, String.utf8ByteSize_singleton]
  exact hsize n h

theorem bytes_repr : ∀ {k n : Nat}, 0 < k → n < 10 ^ k → bytes n.repr ≤ k
  | 0, _, hk, _ => absurd hk (Nat.lt_irrefl 0)
  | k + 1, n, _, h => by
    rcases Nat.lt_or_ge n 10 with hn | hn
    · rw [Nat.repr_of_lt hn, bytes_digit hn]
      omega
    · have hk : 0 < k := by
        rcases Nat.eq_zero_or_pos k with rfl | hk
        · omega
        · exact hk
      have hdiv : n / 10 < 10 ^ k := by
        rw [Nat.div_lt_iff_lt_mul (by omega), ← Nat.pow_succ]
        exact h
      rw [Nat.repr_of_ge hn, bytes_append, bytes_digit (Nat.mod_lt n (by omega))]
      have := bytes_repr hk hdiv
      omega

theorem bytes_printed {n : Nat} (h : n < 2 ^ 64) : bytes (toString n) ≤ 20 :=
  bytes_repr (by omega) (Nat.lt_trans h (by decide))

/-! ## The shipped specifications -/

def SpecValue.width : SpecValue → Nat
  | .none => 0
  | .arithmetic _ _ _ => 20
  | .geometric _ _ _ _ => 20
  | .text s => bytes s
  | .texts l => (l.map bytes).foldr max 0

def optionWidth (o : OptionSpec) : Nat :=
  bytes o.1 + bytes (operatorText (o.2.1.operatorChild.getD "NULL")) +
    bytes (operatorText (o.2.1.operatorValue.getD "NULL")) + o.2.1.value.width +
    max 1 (bytes (o.2.1.operatorSibling.getD "NULL"))

/-- A geometric range whose powers are exact in floating point. -/
def SpecValue.Exact : SpecValue → Prop
  | .geometric a b c f => (a < 2 ^ 31 ∧ b < 2 ^ 31) ∧ (c < 2 ^ 31 ∧ f < 2 ^ 31) ∧ b ≤ c ∧
      a ^ c < 2 ^ 53 ∧ a ^ c * f < 2 ^ 53
  | _ => True

instance (value : SpecValue) : Decidable value.Exact :=
  match value with
  | .none => .isTrue trivial
  | .arithmetic _ _ _ => .isTrue trivial
  | .geometric a b c f => inferInstanceAs (Decidable ((a < 2 ^ 31 ∧ b < 2 ^ 31) ∧
      (c < 2 ^ 31 ∧ f < 2 ^ 31) ∧ b ≤ c ∧ a ^ c < 2 ^ 53 ∧ a ^ c * f < 2 ^ 53))
  | .text _ => .isTrue trivial
  | .texts _ => .isTrue trivial

theorem le_foldr_max : ∀ {l : List Nat} {n : Nat}, n ∈ l → n ≤ l.foldr max 0
  | m :: l, n, h => by
    rw [List.foldr_cons]
    rcases List.mem_cons.1 h with rfl | h
    · exact Nat.le_max_left _ _
    · exact Nat.le_trans (le_foldr_max h) (Nat.le_max_right _ _)

section

variable {J : JsonC} {o : OptionSpec} {node : ArgNode} {cell : Ir}

theorem toU64_getInt {n : Nat} (h : n < 2 ^ 31) : toU64 (J.getInt (.int n)) = n := by
  rw [J.getInt_int (by omega) (by omega)]
  exact toU64_natCast (by omega)

theorem valueText_int (h : node.valueType = 1 ∨ node.valueType = 2) :
    valueText node cell = toString cell.valueInt := if_pos h

theorem valueText_char (h : node.valueType = 3 ∨ node.valueType = 4) :
    valueText node cell = cell.valueChar := by
  unfold valueText
  rw [if_neg (by omega), if_pos h]

theorem LoadedOption.bytes_value (h : LoadedOption J o node) (hex : o.2.1.value.Exact)
    (hd : Drawable node cell) : bytes (valueText node cell) ≤ o.2.1.value.width := by
  have hty := h.valueType
  have hval := h.value
  cases hv : o.2.1.value with
  | none =>
    rw [hv] at hty
    have h0 : node.valueType = 0 := hty
    simp [valueText, h0, bytes]
  | arithmetic a b c =>
    rw [hv] at hty
    have h1 : node.valueType = 1 := hty
    rw [valueText_int (.inl h1)]
    exact bytes_printed (hd.arithmetic h1)
  | geometric a b c f =>
    rw [hv] at hty hval hex
    have h2 : node.valueType = 2 := hty
    obtain ⟨⟨ha, hb⟩, ⟨hc, hf⟩, hbc, hpow, hprod⟩ := hex
    obtain ⟨l, hl, hints⟩ := hval.1 (.inr h2)
    cases hl
    simp only [List.map_cons, List.map_nil, toU64_getInt ha, toU64_getInt hb, toU64_getInt hc,
      toU64_getInt hf] at hints
    obtain ⟨e, -, hec, he⟩ := hd.geometric h2 hints hbc hc hf hpow hprod
    have hlt := (powers_exact hec hf hpow hprod).2
    rw [valueText_int (.inr h2)]
    exact bytes_printed (by omega)
  | text s =>
    rw [hv] at hty hval
    have h3 : node.valueType = 3 := hty
    rw [valueText_char (.inl h3), hd.text h3, hval.2.1 h3]
    exact Nat.le_refl _
  | texts l =>
    rw [hv] at hty hval
    have h4 : node.valueType = 4 := hty
    obtain ⟨l', hl', harr⟩ := hval.2.2 h4
    cases hl'
    have hmem := hd.texts h4
    rw [harr, List.map_map] at hmem
    obtain ⟨text, htm, he⟩ := List.mem_map.1 hmem
    rw [valueText_char (.inr h4), ← he]
    exact le_foldr_max (List.mem_map_of_mem htm)

/-- A node of a loaded table is at most as wide as its option. -/
theorem LoadedOption.nodeWidth_le (h : LoadedOption J o node) (hex : o.2.1.value.Exact)
    (hd : Drawable node cell) : nodeWidth node cell ≤ optionWidth o := by
  have hvalue := h.bytes_value hex hd
  unfold nodeWidth optionWidth
  rw [h.arg, h.operatorChild, h.operatorValue, h.operatorSibling]
  omega

end

/-- The cells hold values that can be drawn for the nodes of a table. -/
def DrawableAll (t : List ArgNode) (ir : List Ir) : Prop :=
  ∀ i node cell, at? t i = some node → at? ir i = some cell → Drawable node cell

theorem commandWidth_le {J : JsonC} {options : List OptionSpec} (hp : ProperDoc options)
    (hex : ∀ o ∈ allOptions options, o.2.1.value.Exact) {arr : List ArgNode} {ir : List Ir}
    (hl : arr.length = (allOptions options).length)
    (hload : ∀ o ∈ allOptions options, ∃ node, at? arr o.2.1.id = some node ∧
      LoadedOption J o node)
    (hd : DrawableAll arr ir) :
    commandWidth arr ir ≤ ((allOptions options).map optionWidth).sum := by
  have hids : ids arr = (allOptions options).map fun o => (o.2.1.id : Int) := by
    rw [ids, hl, ← hp.ids, List.map_map]
    rfl
  calc commandWidth arr ir ≤ ((ids arr).map (widthAt arr ir)).sum :=
        (List.filter_sublist.map _).sum_le_sum fun _ _ => Nat.zero_le _
    _ = ((allOptions options).map fun o => widthAt arr ir o.2.1.id).sum := by
        rw [hids, List.map_map]
        rfl
    _ ≤ ((allOptions options).map optionWidth).sum := by
        refine List.sum_le_sum fun o ho => ?_
        obtain ⟨node, hn, hloaded⟩ := hload o ho
        cases hc : at? ir o.2.1.id with
        | none => simp [widthAt, hn, hc]
        | some cell =>
          simp only [widthAt, hn, hc, Option.bind_some, Option.map_some, Option.getD_some]
          exact hloaded.nodeWidth_le (hex o ho) (hd _ node cell hn hc)

def ChildrenIn (options : List OptionSpec) : Prop :=
  ∀ o ∈ allOptions options, ∀ c ∈ o.2.1.child.getD [], c < (allOptions options).length

theorem inTable_of_childrenIn {J : JsonC} {options : List OptionSpec} (hp : ProperDoc options)
    (hch : ChildrenIn options) {arr : List ArgNode}
    (hl : arr.length = (allOptions options).length)
    (hload : ∀ o ∈ allOptions options, ∃ node, at? arr o.2.1.id = some node ∧
      LoadedOption J o node) :
    ∀ node ∈ arr, ∀ c ∈ node.childId, InTable arr c := by
  intro node hn c hc
  obtain ⟨k, hk⟩ := List.mem_iff_getElem?.1 hn
  obtain ⟨hlt, -⟩ := List.getElem?_eq_some_iff.1 hk
  have hid : k ∈ (allOptions options).map (·.2.1.id) := by
    rw [hp.ids, List.mem_range]
    omega
  obtain ⟨o, ho, rfl⟩ := List.mem_map.1 hid
  obtain ⟨node', hn', hloaded⟩ := hload o ho
  rw [at?_natCast, hk] at hn'
  cases hn'
  rw [hloaded.childId] at hc
  obtain ⟨m, hm, rfl⟩ := List.mem_map.1 hc
  have hfew := hp.few
  have hlt := hch o ho m hm
  rw [J.getInt_int (by omega) (by omega)]
  exact ⟨by omega, by omega⟩

/-- A document is loaded to a table whose child ids are in range and whose commands fit the
buffers, whatever is enabled and drawn. -/
def FitsBuffers (doc : List (String × Json)) : Prop :=
  ∀ (J : JsonC) (heap : Heap), ∃ arr,
    jsonTreeParse J (.obj doc) (malloc heap.node (memberObjects doc).length) = .ok arr ∧
    (∀ node ∈ arr, ∀ c ∈ node.childId, InTable arr c) ∧
    ∀ ir, DrawableAll arr ir → commandWidth arr ir ≤ maxCmdLen - 2

theorem ProperDoc.fitsBuffers {options : List OptionSpec} (hp : ProperDoc options)
    (hex : ∀ o ∈ allOptions options, o.2.1.value.Exact) (hch : ChildrenIn options)
    (hw : ((allOptions options).map optionWidth).sum ≤ maxCmdLen - 2) :
    FitsBuffers (docOf options) := by
  intro J heap
  obtain ⟨arr, harr, hl, hload⟩ := hp.loads J heap
  refine ⟨arr, ?_, inTable_of_childrenIn hp hch hl hload, fun ir hd => ?_⟩
  · rw [memberObjects_docOf, List.length_map]
    exact harr
  · exact Nat.le_trans (commandWidth_le hp hex hl hload hd) hw

theorem mke2fs_exact : ∀ o ∈ allOptions mke2fsOptions, o.2.1.value.Exact := by decide +kernel

theorem resize2fs_exact : ∀ o ∈ allOptions resize2fsOptions, o.2.1.value.Exact := by
  decide +kernel

theorem mke2fs_children : ChildrenIn mke2fsOptions := by
  unfold ChildrenIn
  decide +kernel

theorem resize2fs_children : ChildrenIn resize2fsOptions := by
  unfold ChildrenIn
  decide +kernel

theorem mke2fs_width : ((allOptions mke2fsOptions).map optionWidth).sum = 677 := by
  decide +kernel

theorem resize2fs_width : ((allOptions resize2fsOptions).map optionWidth).sum = 73 := by
  decide +kernel

/-- **The length of a command.** Throughout the emission loop, on any child graph, from any marks
and values and with an empty `branch`, neither buffer holds more than one byte and the widths of
the enabled nodes. When these widths are together at most `MAX_CMD_LEN - 2`, no write leaves a
buffer, and for the two shipped documents they always are. -/
theorem emission_within_buffers (t : List ArgNode)
    (ht : ∀ node ∈ t, ∀ c ∈ node.childId, InTable t c) (ir : List Ir)
    (hl : ir.length = t.length) (stale : Int → Int) :
    (∃ o, emitLoopLog t stale t.length ir "" = .ok o ∧
      emitLoop t stale t.length ir "" = .ok o.toOutput ∧
      (∀ e ∈ o.log, e.AtMost (1 + commandWidth t ir)) ∧
      (commandWidth t ir ≤ maxCmdLen - 2 → ∀ e ∈ o.log, e.Fits)) ∧
    FitsBuffers mke2fsDoc ∧ FitsBuffers resize2fsDoc := by
  obtain ⟨o, ho, hout, hle⟩ := emitLoopLog_width stale ht hl
  refine ⟨⟨o, ho, hout, hle, fun hw e he => (hle e he).fits ?_⟩, ?_, ?_⟩
  · unfold maxCmdLen at hw
    omega
  · refine mke2fs_proper.fitsBuffers mke2fs_exact mke2fs_children ?_
    rw [mke2fs_width]
    decide
  · refine resize2fs_proper.fitsBuffers resize2fs_exact resize2fs_children ?_
    rw [resize2fs_width]
    decide

/-- The commands of the cyclic table. -/
theorem knot_within_buffers :
    (∃ o, emitLoopLog knotTable id 3 [⟨1, 0, ""⟩, ⟨1, 0, ""⟩, ⟨1, 0, ""⟩] "" = .ok o ∧
      emitLoop knotTable id 3 [⟨1, 0, ""⟩, ⟨1, 0, ""⟩, ⟨1, 0, ""⟩] "" = .ok o.toOutput ∧
      (∀ e ∈ o.log, e.AtMost
        (1 + commandWidth knotTable [⟨1, 0, ""⟩, ⟨1, 0, ""⟩, ⟨1, 0, ""⟩])) ∧
      (commandWidth knotTable [⟨1, 0, ""⟩, ⟨1, 0, ""⟩, ⟨1, 0, ""⟩] ≤ maxCmdLen - 2 →
        ∀ e ∈ o.log, e.Fits)) ∧
    FitsBuffers mke2fsDoc ∧ FitsBuffers resize2fsDoc :=
  emission_within_buffers knotTable (by decide) [⟨1, 0, ""⟩, ⟨1, 0, ""⟩, ⟨1, 0, ""⟩] rfl id

end ConFuzz
