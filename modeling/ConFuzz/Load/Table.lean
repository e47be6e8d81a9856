import ConFuzz.Load.Shipped
import ConFuzz.Load.Garbage
import ConFuzz.Load.Bounds
import ConFuzz.Resolve.Values

/-!
# The table of a document

`tableOf options` is the table that the options of a document describe. What
`ct_builder` really loads has the same options (`SameTable`): the fields that no
run reads, such as the text of an option with a number, are what the memory held,
and so are the dependencies under a key that it does not know.
-/

namespace ConFuzz

open ConFuzz.CLib ConFuzz.Config

/-! ## Numbers -/

/-- The part of a decimal before the point. -/
def integerPart (text : String) : Nat :=
  Nat.ofDigitChars 10 (text.toList.takeWhile Char.isDigit) 0

theorem integerPart_toString {n : Nat} : integerPart (toString n ++ ".0") = n := by
  have hdigits : ∀ c ∈ Nat.toDigits 10 n, c.isDigit = true := fun c hc =>
    Nat.isDigit_of_mem_toDigits (by decide) (by decide) hc
  unfold integerPart
  rw [String.toList_append, Nat.toString_eq_ofList_toDigits, String.toList_ofList,
    List.takeWhile_append_of_pos hdigits]
  simp

def SpecNumber.nat : SpecNumber → Nat
  | .int n => n
  | .double text => integerPart text

/-- A number that is an `int`. Doubles are written with the fraction `.0`. -/
def SpecNumber.Whole : SpecNumber → Prop
  | .int n => n < 2 ^ 31
  | .double text => text = toString (integerPart text) ++ ".0" ∧ integerPart text < 2 ^ 31

instance (n : SpecNumber) : Decidable n.Whole :=
  match n with
  | .int n => inferInstanceAs (Decidable (n < 2 ^ 31))
  | .double text => inferInstanceAs (Decidable
      (text = toString (integerPart text) ++ ".0" ∧ integerPart text < 2 ^ 31))

/-- `json_object_get_int` of a double without fraction is its value. -/
def WholeDoubles (J : JsonC) : Prop :=
  ∀ n : Nat, n < 2 ^ 31 → J.intOfDouble (toString n ++ ".0") = n

theorem SpecNumber.toU64_getInt {J : JsonC} {n : SpecNumber} (hJ : WholeDoubles J)
    (h : n.Whole) : toU64 (J.getInt n.json) = n.nat := by
  cases n with
  | int n =>
    have hn : n < 2 ^ 31 := h
    show toU64 (J.getInt (.int n)) = n
    rw [J.getInt_int (by omega) (by omega)]
    exact toU64_natCast (by omega)
  | double text =>
    obtain ⟨htext, hlt⟩ := h
    show toU64 (J.intOfDouble text) = integerPart text
    rw [htext, hJ _ hlt, ← htext]
    exact toU64_natCast (by omega)

/-! ## Nodes -/

def SpecValue.Whole : SpecValue → Prop
  | .arithmetic a b c => a.Whole ∧ b.Whole ∧ c.Whole
  | .geometric a b c f => (SpecNumber.int a).Whole ∧ (SpecNumber.int b).Whole ∧
      (SpecNumber.int c).Whole ∧ (SpecNumber.int f).Whole
  | _ => True

instance (value : SpecValue) : Decidable value.Whole :=
  match value with
  | .none => .isTrue trivial
  | .arithmetic _ _ _ => inferInstanceAs (Decidable (_ ∧ _ ∧ _))
  | .geometric _ _ _ _ => inferInstanceAs (Decidable (_ ∧ _ ∧ _ ∧ _))
  | .text _ => .isTrue trivial
  | .texts _ => .isTrue trivial

def SpecValue.kind : SpecValue → Int
  | .none => 0
  | .arithmetic _ _ _ => 1
  | .geometric _ _ _ _ => 2
  | .text _ => 3
  | .texts _ => 4

def SpecValue.ints : SpecValue → List Nat
  | .arithmetic a b c => [a.nat, b.nat, c.nat]
  | .geometric a b c f => [a, b, c, f]
  | _ => []

def SpecValue.char : SpecValue → String
  | .text s => s
  | _ => ""

def SpecValue.charArray : SpecValue → List String
  | .texts l => l
  | _ => []

def idList (ids : Option (List Nat)) : List Int := (ids.getD []).map Int.ofNat

def nodeOf (o : OptionSpec) : ArgNode where
  arg := o.1
  valueType := o.2.1.value.kind
  valueInt := o.2.1.value.ints
  valueChar := o.2.1.value.char
  valueCharArray := o.2.1.value.charArray
  operatorValue := o.2.1.operatorValue.getD "NULL"
  operatorSibling := o.2.1.operatorSibling.getD "NULL"
  operatorChild := o.2.1.operatorChild.getD "NULL"
  mutex := some (idList o.2.1.mutex)
  mustHave := o.2.1.mustHave
  weight := 1
  mustChild := o.2.1.mustChild
  childId := idList o.2.1.child
  dependencyId :=
    if o.2.1.dependencyKey = Field.dependencyId.key then idList o.2.1.dependency else []

def tableOf (options : List OptionSpec) : List ArgNode := (allOptions options).map nodeOf

/-- The two nodes are the same option: they agree in every field that a run reads. -/
structure SameOption (a b : ArgNode) : Prop where
  arg : a.arg = b.arg
  valueType : a.valueType = b.valueType
  ints : a.valueType = 1 ∨ a.valueType = 2 → a.valueInt = b.valueInt
  text : a.valueType = 3 → a.valueChar = b.valueChar
  texts : a.valueType = 4 → a.valueCharArray = b.valueCharArray
  operatorValue : a.operatorValue = b.operatorValue
  operatorSibling : a.operatorSibling = b.operatorSibling
  operatorChild : a.operatorChild = b.operatorChild
  mutex : a.mutex.getD [] = b.mutex.getD []
  mustHave : a.mustHave = b.mustHave
  weight : a.weight = b.weight
  mustChild : a.mustChild = b.mustChild
  childId : a.childId = b.childId
  dependencyId : a.dependencyId = b.dependencyId

structure SameTable (t t' : List ArgNode) : Prop where
  length : t.length = t'.length
  node : ∀ i a b, at? t i = some a → at? t' i = some b → SameOption a b

section

variable {J : JsonC} {options : List OptionSpec} {o : OptionSpec} {node memory : ArgNode}

/-! ## What is loaded -/

def SmallIds (o : OptionSpec) : Prop :=
  ∀ ids ∈ [o.2.1.mutex, o.2.1.dependency, o.2.1.child], ∀ id ∈ ids.getD [], id < 2 ^ 31

instance (o : OptionSpec) : Decidable (SmallIds o) :=
  inferInstanceAs (Decidable (∀ ids ∈ _, ∀ id ∈ _, _))

theorem loadIds_idList {ids : Option (List Nat)} {l : List Int}
    (hs : ∀ id ∈ ids.getD [], id < 2 ^ 31) (h : loadIds J (idsJson ids) = .ok l) :
    l = idList ids := by
  rw [loadIds_idsJson] at h
  rw [← Except.ok.inj h]
  refine List.map_congr_left fun id hid => ?_
  have := hs id hid
  exact J.getInt_int (by omega) (by omega)

theorem ValueIs.same {value : SpecValue} (hJ : WholeDoubles J) (hw : value.Whole)
    (hty : node.valueType = intOr J 0 value.type) (h : ValueIs J value.json node) :
    node.valueType = value.kind ∧
    (node.valueType = 1 ∨ node.valueType = 2 → node.valueInt = value.ints) ∧
    (node.valueType = 3 → node.valueChar = value.char) ∧
    (node.valueType = 4 → node.valueCharArray = value.charArray) := by
  cases value with
  | none =>
    have h0 : node.valueType = 0 := hty
    exact ⟨h0, fun h => by omega, fun h => by omega, fun h => by omega⟩
  | arithmetic a b c =>
    have h1 : node.valueType = 1 := hty
    refine ⟨h1, fun _ => ?_, fun h => by omega, fun h => by omega⟩
    obtain ⟨l, hl, hints⟩ := h.1 (.inl h1)
    cases hl
    rw [hints]
    obtain ⟨ha, hb, hc⟩ := hw
    simp only [List.map_cons, List.map_nil, SpecNumber.toU64_getInt hJ ha,
      SpecNumber.toU64_getInt hJ hb, SpecNumber.toU64_getInt hJ hc]
    rfl
  | geometric a b c f =>
    have h2 : node.valueType = 2 := hty
    refine ⟨h2, fun _ => ?_, fun h => by omega, fun h => by omega⟩
    obtain ⟨l, hl, hints⟩ := h.1 (.inr h2)
    cases hl
    rw [hints]
    obtain ⟨ha, hb, hc, hf⟩ := hw
    have hnum : ∀ n : Nat, (SpecNumber.int n).Whole → toU64 (J.getInt (.int n)) = n :=
      fun n hn => SpecNumber.toU64_getInt hJ hn
    simp only [List.map_cons, List.map_nil, hnum a ha, hnum b hb, hnum c hc, hnum f hf]
    rfl
  | text text =>
    have h3 : node.valueType = 3 := hty
    exact ⟨h3, fun h => by omega, fun _ => h.2.1 h3, fun h => by omega⟩
  | texts texts =>
    have h4 : node.valueType = 4 := hty
    refine ⟨h4, fun h => by omega, fun h => by omega, fun _ => ?_⟩
    obtain ⟨l, hl, harr⟩ := h.2.2 h4
    cases hl
    rw [harr, List.map_map]
    exact List.map_id _

theorem ProperDoc.dependencyId (h : ProperDoc options) (ho : o ∈ allOptions options)
    (hs : SmallIds o) (hload : loadMembers J (objectOf o).2 memory = .ok node) :
    node.dependencyId = if o.2.1.dependencyKey = Field.dependencyId.key
      then idList o.2.1.dependency else memory.dependencyId := by
  have hkeys : ((objectOf o).2.map Prod.fst).Nodup := by
    rw [map_fst_objectOf]
    exact h.keys o ho
  split
  · rename_i hkey
    have hmem : (Field.dependencyId.key, idsJson o.2.1.dependency) ∈ (objectOf o).2 := by
      refine List.mem_append_left _ ?_
      rw [← hkey]
      simp [NodeSpec.fields]
    have hids : loadIds J (idsJson o.2.1.dependency) = .ok node.dependencyId :=
      loadMembers_fieldIs hkeys hload hmem (fun h => by cases h)
        ⟨(fun h => by cases h), (fun h => by cases h)⟩
    exact loadIds_idList (hs _ (by simp)) hids
  · rename_i hkey
    have hout : LeftOut (objectOf o).2 .dependencyId := by
      refine ⟨fun v hv => ?_, fun h => by cases h⟩
      have hv := h.mem_fields ho hv
      simp [NodeSpec.fields, Field.key] at hv
      exact absurd hv.1.symm hkey
    exact (hout.same hkeys hload).symm

/-- An option is loaded as its node. -/
theorem ProperDoc.sameOption (h : ProperDoc options) (ho : o ∈ allOptions options)
    (hJ : WholeDoubles J) (hw : o.2.1.value.Whole) (hs : SmallIds o)
    (hdep : o.2.1.dependencyKey ≠ Field.dependencyId.key → memory.dependencyId = [])
    (hloaded : Loaded J (objectOf o).1 (objectOf o).2 node)
    (hload : loadMembers J (objectOf o).2 memory = .ok node) : SameOption node (nodeOf o) := by
  have hopt := hloaded.option
  obtain ⟨hkind, hints, htext, htexts⟩ := ValueIs.same hJ hw hopt.valueType hopt.value
  have hkeys : ((objectOf o).2.map Prod.fst).Nodup := by
    rw [map_fst_objectOf]
    exact h.keys o ho
  have hmem : ∀ m ∈ o.2.1.fields, m ∈ (objectOf o).2 := fun m => List.mem_append_left _
  -- `must_child` is never null, so nothing resets `must_have`
  have hmc : (Field.mustChild.key, .null) ∉ (objectOf o).2 := by
    intro hnull
    have hbool : (Field.mustChild.key, Json.bool o.2.1.mustChild) ∈ (objectOf o).2 :=
      hmem _ (by simp [NodeSpec.fields, Field.key])
    have he := (memberOf_eq hkeys hnull).symm.trans (memberOf_eq hkeys hbool)
    cases he
  have hfield : ∀ f v, (f.key, v) ∈ o.2.1.fields → (f = .mustChild → v ≠ .null) →
      FieldIs J f v node := fun f v hv h1 => hloaded.field f v (hmem _ hv) ⟨h1, fun _ => hmc⟩
  have hmutex : loadIds J (idsJson o.2.1.mutex) = .ok (node.mutex.getD []) :=
    hfield .mutex _ (by simp [NodeSpec.fields, Field.key]) (fun h => by cases h)
  have hchild : loadIds J (idsJson o.2.1.child) = .ok node.childId :=
    hfield .childId _ (by simp [NodeSpec.fields, Field.key]) (fun h => by cases h)
  refine ⟨hopt.arg, hkind, hints, htext, htexts, hopt.operatorValue, hopt.operatorSibling,
    hopt.operatorChild, loadIds_idList (hs _ (by simp)) hmutex, ?_, ?_, ?_,
    loadIds_idList (hs _ (by simp)) hchild, ?_⟩
  · exact hfield .mustHave (.bool o.2.1.mustHave) (by simp [NodeSpec.fields, Field.key])
      (fun h => by cases h)
  · exact hfield .weight .null (by simp [NodeSpec.fields, Field.key]) (fun h => by cases h)
  · exact hfield .mustChild (.bool o.2.1.mustChild) (by simp [NodeSpec.fields, Field.key])
      (fun _ h => by cases h)
  · rw [h.dependencyId ho hs hload]
    show _ = if o.2.1.dependencyKey = Field.dependencyId.key then _ else _
    split
    · rfl
    · rename_i hkey
      exact hdep hkey

/-- The memory under the options whose dependencies are not read has none. -/
def NoStrayDeps (options : List OptionSpec) (heap : Heap) : Prop :=
  ∀ o ∈ allOptions options, o.2.1.dependencyKey ≠ Field.dependencyId.key →
    (heap.node o.2.1.id).dependencyId = []

/-- A document whose values and ids are read as they are written. -/
structure PlainDoc (options : List OptionSpec) : Prop extends ProperDoc options where
  whole : ∀ o ∈ allOptions options, o.2.1.value.Whole
  small : ∀ o ∈ allOptions options, SmallIds o

theorem ProperDoc.exists_option (h : ProperDoc options) {k : Nat}
    (hk : k < (allOptions options).length) :
    ∃ o ∈ allOptions options, o.2.1.id = k ∧ at? (tableOf options) k = some (nodeOf o) := by
  refine ⟨(allOptions options)[k], List.getElem_mem hk, ?_, ?_⟩
  · have hid := congrArg (fun l => l[k]?) h.ids
    simp only [List.getElem?_map, List.getElem?_eq_getElem hk, Option.map_some,
      List.getElem?_range hk] at hid
    exact Option.some.inj hid
  · rw [at?_natCast, tableOf, List.getElem?_map, List.getElem?_eq_getElem hk, Option.map_some]

/-- **A document is loaded as its table**, whatever else the memory held. -/
theorem PlainDoc.loads_table (h : PlainDoc options) (hJ : WholeDoubles J) {heap : Heap}
    (hdep : NoStrayDeps options heap) :
    ∃ arr, jsonTreeParse J (.obj (docOf options))
        (malloc heap.node (allOptions options).length) = .ok arr ∧
      SameTable arr (tableOf options) := by
  have hlen : (memberObjects (docOf options)).length = (allOptions options).length := by
    rw [memberObjects_docOf, List.length_map]
  have hmem : (malloc heap.node (allOptions options).length).length =
      (memberObjects (docOf options)).length := by rw [hlen, length_malloc]
  obtain ⟨arr, harr, hl, hload⟩ := jsonTreeParse_loads (h.spec (J := J)) hmem
  have hslots := jsonTreeParse_slots (h.spec (J := J)).keyed hmem harr
  refine ⟨arr, harr, ?_, fun i a b ha hb => ?_⟩
  · rw [hl, hlen, tableOf, List.length_map]
  · obtain ⟨h0, h1⟩ := range_of_at? ha
    obtain ⟨k, rfl⟩ := Int.eq_ofNat_of_zero_le h0
    have hk : k < (allOptions options).length := by omega
    obtain ⟨o, ho, rfl, htable⟩ := h.exists_option hk
    rw [htable] at hb
    cases hb
    have hobj : objectOf o ∈ memberObjects (docOf options) := by
      rw [memberObjects_docOf]
      exact List.mem_map_of_mem ho
    have hid : idOf J (objectOf o).2 = o.2.1.id := h.idOf_eq ho
    obtain ⟨node, hn, hloaded⟩ := hload (objectOf o) hobj
    obtain ⟨memory, node', hm, hlm, hn'⟩ := hslots.loaded (objectOf o) hobj
    rw [hid, ha] at hn hn'
    cases hn
    cases hn'
    rw [hid, at?_natCast, malloc, List.getElem?_map, Int.toNat_natCast, List.getElem?_range hk,
      Option.map_some] at hm
    cases hm
    refine h.sameOption ho hJ (h.whole o ho) (h.small o ho) ?_ hloaded hlm
    exact fun hkey => hdep o ho hkey

/-! ## A run on a document -/

/-- After loading, a run on a document is a call of `arg_fuzz`. -/
theorem PlainDoc.main_eq (h : PlainDoc options) (hJ : WholeDoubles J) {heap : Heap}
    (hdep : NoStrayDeps options heap) :
    ∃ arr, SameTable arr (tableOf options) ∧ ∀ d,
      main J d heap (.obj (docOf options)) = (argFuzz d arr arr.length
        (malloc heap.byte arr.length) 0 ⟨malloc heap.cell arr.length, heap.branch, heap.last⟩ >>=
          fun r => .ok r.1) := by
  obtain ⟨arr, harr, hsame⟩ := h.loads_table hJ hdep
  have hl : arr.length = (allOptions options).length := by
    rw [hsame.length, tableOf, List.length_map]
  have hweights : (arr.map (·.weight)).sum = arr.length := by
    have hone : ∀ node ∈ arr, node.weight = 1 := by
      intro node hn
      obtain ⟨k, hk⟩ := List.mem_iff_getElem?.1 hn
      rw [← at?_natCast] at hk
      have hlt := (range_of_at? hk).2
      obtain ⟨o, -, -, htable⟩ := h.exists_option (show k < (allOptions options).length by omega)
      exact (hsame.node k node _ hk htable).weight
    rw [List.map_congr_left hone]
    simp
  have hbits : bitmapLen arr arr.length = .ok arr.length := by
    have hfew := h.few
    rw [bitmapLen_eq, hweights, toInt32_natCast (by omega)]
  have hcount : ((memberObjects (docOf options)).length : Int) + 1 - 1 = arr.length := by
    rw [memberObjects_docOf, List.length_map, hl]
    omega
  refine ⟨arr, hsame, fun d => ?_⟩
  unfold main
  rw [jsoCount_visit, ok_bind]
  simp only [hcount, Int.toNat_natCast]
  rw [hl, harr, ok_bind, ← hl, hbits, ok_bind]
  rfl

end

theorem mke2fs_plain : PlainDoc mke2fsOptions where
  toProperDoc := mke2fs_proper
  whole := by decide +kernel
  small := by decide +kernel

theorem resize2fs_plain : PlainDoc resize2fsOptions where
  toProperDoc := resize2fs_proper
  whole := by decide +kernel
  small := by decide +kernel

end ConFuzz
