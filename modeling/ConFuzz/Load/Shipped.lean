import ConFuzz.Load.Document

/-!
# The shipped specifications

`mke2fsDoc` and `resize2fsDoc` are the documents `json/mke2fs.json` and
`json/resize2fs.json`. Their node objects have the same twelve members in the
same order, then the nested options, so a document is written as a list of
`NodeSpec`s. `-E` of `mke2fs` has the key `dependencies_id`, for which
`ct_builder` has no test: its dependencies are what the memory held before.

Both documents are loaded object by object (`docOf_spec`), whatever the memory
held.
-/

namespace ConFuzz

open ConFuzz.CLib

/-! ## Documents of node specifications -/

inductive SpecNumber where
  | int (n : Nat)
  | double (text : String)

instance (n : Nat) : OfNat SpecNumber n := ⟨.int n⟩

def SpecNumber.json : SpecNumber → Json
  | .int n => .int n
  | .double text => .double text

inductive SpecValue where
  | none
  | arithmetic (a b c : SpecNumber)
  | geometric (a b c f : Nat)
  | text (text : String)
  | texts (texts : List String)

def SpecValue.type : SpecValue → Json
  | .none => .null
  | .arithmetic _ _ _ => .int 1
  | .geometric _ _ _ _ => .int 2
  | .text _ => .int 3
  | .texts _ => .int 4

def SpecValue.json : SpecValue → Json
  | .none => .null
  | .arithmetic a b c => .arr [a.json, b.json, c.json]
  | .geometric a b c f => .arr [.int a, .int b, .int c, .int f]
  | .text s => .str s
  | .texts l => .arr (l.map .str)

def textJson : Option String → Json
  | none => .null
  | some text => .str text

def idsJson : Option (List Nat) → Json
  | none => .null
  | some ids => .arr (ids.map fun (id : Nat) => .int id)

/-- A node object. The defaults are those of most nodes. -/
structure NodeSpec where
  id : Nat
  value : SpecValue := .none
  operatorValue : Option String := none
  operatorSibling : Option String := some " "
  operatorChild : Option String := none
  mutex : Option (List Nat) := none
  mustHave : Bool := false
  dependencyKey : String := "dependency_id"
  dependency : Option (List Nat) := none
  mustChild : Bool := false
  child : Option (List Nat) := none

/-- The members of a node object, before the nested options. -/
def NodeSpec.fields (p : NodeSpec) : List (String × Json) :=
  [("id", .int p.id), ("value_type", p.value.type), ("value", p.value.json),
   ("operator_value", textJson p.operatorValue), ("operator_sibling", textJson p.operatorSibling),
   ("operator_child", textJson p.operatorChild), ("mutex", idsJson p.mutex),
   ("must_have", .bool p.mustHave), (p.dependencyKey, idsJson p.dependency), ("weight", .null),
   ("must_child", .bool p.mustChild), ("child_id", idsJson p.child)]

abbrev OptionSpec : Type := String × NodeSpec × List (String × NodeSpec)

def nestedDoc (kids : List (String × NodeSpec)) : List (String × Json) :=
  kids.map fun k => (k.1, .obj k.2.fields)

def docOf (options : List OptionSpec) : List (String × Json) :=
  options.map fun o => (o.1, .obj (o.2.1.fields ++ nestedDoc o.2.2))

/-- The content of `json/mke2fs.json`. -/
def mke2fsOptions : List OptionSpec :=
  [("-b", { id := 0, value := .geometric 2 0 2 1024, operatorValue := some " ",
            mustHave := true }, []),
   ("-c", { id := 1, child := some [2] },
     [("c", { id := 2, operatorSibling := none, dependency := some [1] })]),
   ("-E", { id := 3, operatorChild := some " ", mustHave := true,
            dependencyKey := "dependencies_id", mustChild := true,
            child := some [4, 5, 6, 7, 8, 9, 10] },
     [("stride=", { id := 4, value := .arithmetic 0 1000 1, operatorSibling := some ",",
                    dependency := some [3] }),
      ("stripe-width=", { id := 5, value := .arithmetic 0 1000 1, operatorSibling := some ",",
                          dependency := some [3] }),
      ("resize=", { id := 6, value := .arithmetic 0 1000000 1, operatorSibling := some ",",
                    dependency := some [3] }),
      ("lazy_itable_init=", { id := 7, value := .arithmetic 0 1 1, operatorSibling := some ",",
                              dependency := some [3] }),
      ("test_fs", { id := 8, operatorSibling := some ",", dependency := some [3] }),
      ("discard", { id := 9, operatorSibling := some ",", dependency := some [3] }),
      ("nodiscard", { id := 10, operatorSibling := some ",", dependency := some [3] })]),
   ("-F ", { id := 11, mustHave := true }, []),
   ("-g ", { id := 12, value := .arithmetic 0 1000 8, operatorValue := some " " }, []),
   ("-G", { id := 13, value := .geometric 2 0 10 1, operatorValue := some " ",
            dependency := some [32] }, []),
   ("-i", { id := 14, value := .arithmetic 1024 4096 1, operatorValue := some " " }, []),
   ("-I", { id := 15, value := .geometric 2 0 3 128, operatorValue := some " " }, []),
   ("-j", { id := 16, operatorValue := some " " }, []),
   ("-J", { id := 17, operatorValue := some " ", operatorChild := some " ", mustChild := true,
            child := some [18, 19] },
     [("size=", { id := 18, value := .arithmetic (.double "1.0") (.double "100.0") 1,
                  operatorSibling := some ",", mutex := some [19], dependency := some [17] }),
      ("device=", { id := 19, value := .text "journal_dev", operatorSibling := some ",",
                    mutex := some [18], dependency := some [17] })]),
   ("-K", { id := 20, operatorValue := some " " }, []),
   ("-l", { id := 21, value := .text "loop_dev", operatorValue := some " " }, []),
   ("-L", { id := 22, value := .arithmetic 0 1000 1, operatorValue := some " " }, []),
   ("-m", { id := 23, value := .arithmetic 0 50 1, operatorValue := some " " }, []),
   ("-M", { id := 24, value := .text "./mnt", operatorValue := some " " }, []),
   ("-n", { id := 25, operatorValue := some " " }, []),
   ("-N", { id := 26, value := .arithmetic 0 1000 1, operatorValue := some " " }, []),
   ("-o", { id := 27, value := .texts ["linux_1.0", "linux_1.1", "linux_1.2", "linux_2.0"],
            operatorValue := some " " }, []),
   ("-O", { id := 28, operatorChild := some " ", mustChild := true,
            child := some [29, 30, 31, 32, 33, 34, 35, 36, 37, 38] },
     [("dir_index", { id := 29, operatorSibling := some ",", dependency := some [28] }),
      ("extent", { id := 30, operatorSibling := some ",", dependency := some [28] }),
      ("filetype", { id := 31, operatorSibling := some ",", dependency := some [28] }),
      ("flex_bg", { id := 32, operatorSibling := some ",", dependency := some [28] }),
      ("has_journal", { id := 33, operatorSibling := some ",", dependency := some [28] }),
      ("journal_dev", { id := 34, operatorSibling := some ",", dependency := some [28] }),
      ("large_file", { id := 35, operatorSibling := some ",", dependency := some [28] }),
      ("resize_inode", { id := 36, operatorSibling := some ",", dependency := some [28] }),
      ("sparse_super", { id := 37, operatorSibling := some ",", dependency := some [28] }),
      ("uninit_bg", { id := 38, operatorSibling := some ",", dependency := some [28] })]),
   ("-q", { id := 39 }, []),
   ("-r", { id := 40, value := .arithmetic 0 1 1, operatorValue := some " " }, []),
   ("-S", { id := 41 }, []),
   ("-t", { id := 42, value := .texts ["ext2", "ext3", "ext4"], operatorValue := some " ",
            mustHave := true }, []),
   ("-T", { id := 43, value := .texts ["floppy", "small", "default"],
            operatorValue := some " " }, []),
   ("-U", { id := 44,
            value := .texts ["2b8fd835-3b1b-4258-9a41-7345c6aa15e1",
              "13f725e4-a4a4-11eb-bcbc-0242ac130002"],
            operatorValue := some " " }, []),
   ("-v", { id := 45 }, []),
   ("-V", { id := 46 }, []),
   ("-d", { id := 47, value := .text "/tmp/legacy" }, [])]

/-- The content of `json/resize2fs.json`. -/
def resize2fsOptions : List OptionSpec :=
  [("-b", { id := 0, mutex := some [7] }, []),
   ("-d", { id := 1, value := .geometric 2 1 5 1, operatorValue := some " " }, []),
   ("-f", { id := 2 }, []),
   ("-F", { id := 3 }, []),
   ("-M", { id := 4 }, []),
   ("-p", { id := 5 }, []),
   ("-P", { id := 6, dependency := some [4] }, []),
   ("-s", { id := 7, mutex := some [0] }, []),
   ("-S", { id := 8, value := .text "RAID-stride", operatorValue := some " " }, []),
   ("-z", { id := 9, value := .text "undo_file", operatorValue := some " " }, [])]

def mke2fsDoc : List (String × Json) := docOf mke2fsOptions

def resize2fsDoc : List (String × Json) := docOf resize2fsOptions

/-! ## Their objects -/

theorem memberObjects_append : ∀ a b : List (String × Json),
    memberObjects (a ++ b) = memberObjects a ++ memberObjects b
  | [], b => by
    rw [List.nil_append, memberObjects]
    rfl
  | (key, j) :: a, b => by
    rw [List.cons_append, memberObjects, memberObjects, memberObjects_append a b,
      List.append_assoc]

theorem elementObjects_eq_nil : ∀ {l : List Json}, (∀ j ∈ l, objects j none = []) →
    elementObjects l = []
  | [], _ => by rw [elementObjects]
  | j :: l, h => by
    rw [elementObjects, h j List.mem_cons_self, List.nil_append]
    exact elementObjects_eq_nil fun j' hj' => h j' (List.mem_cons_of_mem j hj')

theorem NodeSpec.memberObjects_fields (p : NodeSpec) : memberObjects p.fields = [] := by
  have htext : ∀ (text : Option String) key, objects (textJson text) key = [] := by
    intro text key
    cases text with
    | _ => rfl
  have hids : ∀ (ids : Option (List Nat)) key, objects (idsJson ids) key = [] := by
    intro ids key
    cases ids with
    | none => rfl
    | some ids =>
      refine elementObjects_eq_nil fun j hj => ?_
      obtain ⟨id, -, rfl⟩ := List.mem_map.1 hj
      rfl
  have htype : ∀ key, objects p.value.type key = [] := by
    intro key
    cases p.value with
    | _ => rfl
  have hnumber : ∀ n : SpecNumber, objects n.json none = [] := by
    intro n
    cases n with
    | _ => rfl
  have hvalue : ∀ key, objects p.value.json key = [] := by
    intro key
    cases p.value with
    | none => rfl
    | arithmetic a b c =>
      refine elementObjects_eq_nil fun j hj => ?_
      simp only [List.mem_cons, List.not_mem_nil, or_false] at hj
      rcases hj with rfl | rfl | rfl
      · exact hnumber a
      · exact hnumber b
      · exact hnumber c
    | geometric a b c f => rfl
    | text text => rfl
    | texts texts =>
      refine elementObjects_eq_nil fun j hj => ?_
      obtain ⟨text, -, rfl⟩ := List.mem_map.1 hj
      rfl
  simp [NodeSpec.fields, memberObjects, htext, hids, htype, hvalue, objects]

def allOptions (options : List OptionSpec) : List OptionSpec :=
  options.flatMap fun o => o :: o.2.2.map fun k => (k.1, k.2, [])

def objectOf (o : OptionSpec) : Option String × List (String × Json) :=
  (some o.1, o.2.1.fields ++ nestedDoc o.2.2)

theorem memberObjects_nestedDoc : ∀ kids : List (String × NodeSpec),
    memberObjects (nestedDoc kids) = kids.map fun k => (some k.1, k.2.fields)
  | [] => by
    rw [nestedDoc, List.map_nil, memberObjects]
    rfl
  | k :: kids => by
    have ih := memberObjects_nestedDoc kids
    rw [nestedDoc, List.map_cons, memberObjects, objects, NodeSpec.memberObjects_fields]
    rw [nestedDoc] at ih
    rw [ih]
    rfl

theorem memberObjects_docOf : ∀ options : List OptionSpec,
    memberObjects (docOf options) = (allOptions options).map objectOf
  | [] => by
    rw [docOf, List.map_nil, memberObjects]
    rfl
  | o :: options => by
    have ih := memberObjects_docOf options
    rw [docOf] at ih
    rw [docOf, List.map_cons, memberObjects, objects, memberObjects_append,
      NodeSpec.memberObjects_fields, List.nil_append, memberObjects_nestedDoc, ih, allOptions,
      allOptions, List.flatMap_cons, List.map_append, List.map_cons, List.map_map]
    simp [objectOf, nestedDoc]

def keysOf (o : OptionSpec) : List String :=
  ["id", "value_type", "value", "operator_value", "operator_sibling", "operator_child", "mutex",
    "must_have", o.2.1.dependencyKey, "weight", "must_child", "child_id"] ++ o.2.2.map Prod.fst

/-- A document that `ct_builder` loads object by object, in document order. -/
structure ProperDoc (options : List OptionSpec) : Prop where
  root : "id" ∉ options.map Prod.fst
  ids : (allOptions options).map (·.2.1.id) = List.range (allOptions options).length
  few : (allOptions options).length < 2 ^ 31
  keys : ∀ o ∈ allOptions options, (keysOf o).Nodup
  nested : ∀ o ∈ allOptions options, ∀ k ∈ o.2.2, Field.ofKey k.1 = none

theorem mke2fs_proper : ProperDoc mke2fsOptions where
  root := by decide +kernel
  ids := by decide +kernel
  few := by decide +kernel
  keys := by decide +kernel
  nested := by decide +kernel

theorem resize2fs_proper : ProperDoc resize2fsOptions where
  root := by decide +kernel
  ids := by decide +kernel
  few := by decide +kernel
  keys := by decide +kernel
  nested := by decide +kernel

/-! ## Loading them -/

section

variable {J : JsonC} {options : List OptionSpec} {o : OptionSpec}

theorem map_fst_objectOf (o : OptionSpec) : (objectOf o).2.map Prod.fst = keysOf o := by
  simp [objectOf, NodeSpec.fields, nestedDoc, keysOf, Function.comp_def]

theorem ProperDoc.mem_fields (h : ProperDoc options) (ho : o ∈ allOptions options) {f : Field}
    {v : Json} (hv : (f.key, v) ∈ (objectOf o).2) : (f.key, v) ∈ o.2.1.fields := by
  rcases List.mem_append.1 hv with hv | hv
  · exact hv
  · obtain ⟨k, hk, he⟩ := List.mem_map.1 hv
    have hnone := h.nested o ho k hk
    rw [show k.1 = f.key from congrArg Prod.fst he, Field.ofKey_key] at hnone
    cases hnone

theorem isList_idsJson (ids : Option (List Nat)) : IsList (idsJson ids) := by
  cases ids with
  | none => exact .inl rfl
  | some ids => exact .inr ⟨_, rfl⟩

theorem SpecValue.isList (value : SpecValue)
    (h : intOr J 0 value.type = 1 ∨ intOr J 0 value.type = 2 ∨ intOr J 0 value.type = 4) :
    IsList value.json := by
  cases value with
  | none => exact .inl rfl
  | arithmetic a b c => exact .inr ⟨_, rfl⟩
  | geometric a b c f => exact .inr ⟨_, rfl⟩
  | text s =>
    have htype : intOr J 0 (SpecValue.text s).type = 3 := rfl
    rw [htype] at h
    omega
  | texts l => exact .inr ⟨_, rfl⟩

theorem ProperDoc.nodeObject (h : ProperDoc options) (ho : o ∈ allOptions options) :
    NodeObject J (objectOf o).2 := by
  have hkeys : ((objectOf o).2.map Prod.fst).Nodup := by
    rw [map_fst_objectOf]
    exact h.keys o ho
  refine ⟨hkeys, ⟨.int o.2.1.id, List.mem_cons_self⟩, fun f v hf hv => ?_, fun v hv => ?_⟩
  · have hv := h.mem_fields ho hv
    rcases hf with rfl | rfl | rfl
    · simp [NodeSpec.fields, Field.key] at hv
      rcases hv with rfl | ⟨-, rfl⟩
      · exact isList_idsJson _
      · exact isList_idsJson _
    · simp [NodeSpec.fields, Field.key] at hv
      rw [hv.2]
      exact isList_idsJson _
    · simp [NodeSpec.fields, Field.key] at hv
      rcases hv with ⟨-, rfl⟩ | rfl
      · exact isList_idsJson _
      · exact isList_idsJson _
  · have hval : v = o.2.1.value.json := (memberOf_eq hkeys hv).symm
    subst hval
    exact ⟨[("id", .int o.2.1.id), ("value_type", o.2.1.value.type)], _, o.2.1.value.type, rfl,
      List.mem_cons_of_mem _ List.mem_cons_self, List.mem_cons_self, o.2.1.value.isList⟩

theorem ProperDoc.id_lt (h : ProperDoc options) (ho : o ∈ allOptions options) :
    o.2.1.id < (allOptions options).length := by
  have hmem : o.2.1.id ∈ (allOptions options).map (·.2.1.id) :=
    List.mem_map_of_mem (f := fun o : OptionSpec => o.2.1.id) ho
  rw [h.ids] at hmem
  exact List.mem_range.1 hmem

theorem ProperDoc.idOf_eq (h : ProperDoc options) (ho : o ∈ allOptions options) :
    idOf J (objectOf o).2 = o.2.1.id := by
  have hlt := h.id_lt ho
  have hfew := h.few
  show J.getInt (.int o.2.1.id) = o.2.1.id
  exact J.getInt_int (by omega) (by omega)

/-- **A proper document fills the slots of the table.** -/
theorem ProperDoc.spec (h : ProperDoc options) : SpecDoc J (docOf options) := by
  refine ⟨fun v hv => ?_, ?_, fun o ho => ?_⟩
  · apply h.root
    obtain ⟨o, ho, he⟩ := List.mem_map.1 hv
    exact List.mem_map.2 ⟨o, ho, congrArg Prod.fst he⟩
  · have hids : ((allOptions options).map objectOf).map (fun o => idOf J o.2) =
        (List.range (allOptions options).length).map Int.ofNat := by
      rw [← h.ids, List.map_map, List.map_map]
      exact List.map_congr_left fun o ho => h.idOf_eq ho
    rw [memberObjects_docOf, hids, List.length_map]
  · rw [memberObjects_docOf] at ho
    obtain ⟨o', ho', rfl⟩ := List.mem_map.1 ho
    exact h.nodeObject ho'

/-- A node with the texts, the value and the children of its option. -/
structure LoadedOption (J : JsonC) (o : OptionSpec) (node : ArgNode) : Prop where
  arg : node.arg = o.1
  valueType : node.valueType = intOr J 0 o.2.1.value.type
  value : ValueIs J o.2.1.value.json node
  operatorValue : node.operatorValue = o.2.1.operatorValue.getD "NULL"
  operatorSibling : node.operatorSibling = o.2.1.operatorSibling.getD "NULL"
  operatorChild : node.operatorChild = o.2.1.operatorChild.getD "NULL"
  childId : node.childId = (o.2.1.child.getD []).map fun (id : Nat) => J.getInt (.int id)

theorem loadOperator_textJson (J : JsonC) (text : Option String) :
    loadOperator J (textJson text) = text.getD "NULL" := by
  cases text with
  | _ => rfl

theorem loadIds_idsJson (J : JsonC) (ids : Option (List Nat)) :
    loadIds J (idsJson ids) = .ok ((ids.getD []).map fun (id : Nat) => J.getInt (.int id)) := by
  cases ids with
  | none => rfl
  | some ids =>
    show Except.ok _ = Except.ok _
    rw [List.map_map]
    rfl

theorem Loaded.option {node : ArgNode} (h : Loaded J (objectOf o).1 (objectOf o).2 node) :
    LoadedOption J o node := by
  have hfield : ∀ f v, (f.key, v) ∈ o.2.1.fields → f ≠ .mustChild → f ≠ .mustHave →
      FieldIs J f v node := fun f v hv h1 h2 =>
    h.field f v (List.mem_append_left _ hv) ⟨fun h => absurd h h1, fun h => absurd h h2⟩
  refine ⟨h.arg, ?_, ?_, ?_, ?_, ?_, ?_⟩
  · exact hfield .valueType o.2.1.value.type (by simp [NodeSpec.fields, Field.key]) nofun nofun
  · exact hfield .value o.2.1.value.json (by simp [NodeSpec.fields, Field.key]) nofun nofun
  · rw [← loadOperator_textJson J]
    exact hfield .operatorValue _ (by simp [NodeSpec.fields, Field.key]) nofun nofun
  · rw [← loadOperator_textJson J]
    exact hfield .operatorSibling _ (by simp [NodeSpec.fields, Field.key]) nofun nofun
  · rw [← loadOperator_textJson J]
    exact hfield .operatorChild _ (by simp [NodeSpec.fields, Field.key]) nofun nofun
  · have hids : loadIds J (idsJson o.2.1.child) = .ok node.childId :=
      hfield .childId _ (by simp [NodeSpec.fields, Field.key]) nofun nofun
    rw [loadIds_idsJson] at hids
    exact (Except.ok.inj hids).symm

/-- **A proper document is loaded option by option**, whatever the memory held. -/
theorem ProperDoc.loads (h : ProperDoc options) (J : JsonC) (heap : Heap) :
    ∃ arr, jsonTreeParse J (.obj (docOf options))
        (malloc heap.node (allOptions options).length) = .ok arr ∧
      arr.length = (allOptions options).length ∧
      ∀ o ∈ allOptions options, ∃ node, at? arr o.2.1.id = some node ∧ LoadedOption J o node := by
  have hlen : (memberObjects (docOf options)).length = (allOptions options).length := by
    rw [memberObjects_docOf, List.length_map]
  have hmem : (malloc heap.node (allOptions options).length).length =
      (memberObjects (docOf options)).length := by rw [hlen, length_malloc]
  obtain ⟨arr, harr, hl, hload⟩ := jsonTreeParse_loads (h.spec (J := J)) hmem
  refine ⟨arr, harr, hl.trans hlen, fun o ho => ?_⟩
  obtain ⟨node, hn, hloaded⟩ := hload (objectOf o) (by
    rw [memberObjects_docOf]
    exact List.mem_map_of_mem ho)
  rw [h.idOf_eq ho] at hn
  exact ⟨node, hn, hloaded.option⟩

end

end ConFuzz
