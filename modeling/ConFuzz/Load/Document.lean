import ConFuzz.Load.Fields
import Mathlib.Data.List.Nodup

/-!
# The whole specification

`memberObjects members` are the objects below the root, in document order. They
are counted by one traversal and loaded by another. When their ids are a
permutation of the slots, every object keeps the slot it has filled, whatever
the nesting (`jsonTreeParse_loads`).

`Decodes` spells out what the fields of a node must be, with integers as the
document writes them.
-/

namespace ConFuzz

open ConFuzz.CLib

/-! ## Traversals -/

section

variable {J : JsonC} {members : List (String × Json)} {arr : List ArgNode}

theorem objects_obj (members : List (String × Json)) :
    objects (.obj members) none = (none, members) :: memberObjects members := by
  unfold objects
  rfl

theorem jsoCount_acts : ActsOnObjects jsoCount fun _ _ count => .ok (count + 1) := by
  refine ⟨fun _ _ _ => rfl, fun j _ _ => ?_, fun j _ _ h => ?_⟩
  · cases j with
    | _ => rfl
  · cases j with
    | obj members => exact absurd rfl (h members)
    | _ => rfl

theorem ctBuilder_acts : ActsOnObjects (ctBuilder J) (buildNode J) := by
  refine ⟨fun _ _ _ => rfl, fun j _ _ => ?_, fun j _ _ h => ?_⟩
  · cases j with
    | _ => rfl
  · cases j with
    | obj members => exact absurd rfl (h members)
    | _ => rfl

theorem foldlM_count {α : Type} : ∀ (l : List α) (count : Int),
    l.foldlM (fun count _ => (.ok (count + 1) : Except Fault Int)) count = .ok (count + l.length)
  | [], count => by simp
  | a :: l, count => by
    rw [List.foldlM_cons, ok_bind, foldlM_count l]
    simp only [List.length_cons, Int.natCast_add, Int.natCast_one]
    congr 1
    omega

/-- `jso_count` counts the objects below the root and the root itself. -/
theorem jsoCount_visit (members : List (String × Json)) :
    visit jsoCount (.obj members) none 0 = .ok ((memberObjects members).length + 1) := by
  rw [visit_eq_foldlM jsoCount_acts, foldlM_count, objects_obj, List.length_cons]
  congr 1
  omega

/-- A document whose objects have unique keys and ids that are a permutation of the slots. -/
structure KeyedDoc (J : JsonC) (members : List (String × Json)) : Prop where
  root : ∀ v, ("id", v) ∉ members
  ids : ((memberObjects members).map fun o => idOf J o.2).Perm
    ((List.range (memberObjects members).length).map Int.ofNat)
  keys : ∀ o ∈ memberObjects members, (o.2.map Prod.fst).Nodup
  id : ∀ o ∈ memberObjects members, ∃ v, ("id", v) ∈ o.2

theorem KeyedDoc.nodup (h : KeyedDoc J members) :
    ((memberObjects members).map fun o => idOf J o.2).Nodup :=
  h.ids.nodup_iff.2 (List.Nodup.map (fun _ _ h => Int.ofNat.inj h) List.nodup_range)

theorem KeyedDoc.id_range (h : KeyedDoc J members) {o : Option String × List (String × Json)}
    (ho : o ∈ memberObjects members) :
    0 ≤ idOf J o.2 ∧ idOf J o.2 < (memberObjects members).length := by
  have hmem := h.ids.mem_iff.1 (List.mem_map_of_mem (f := fun o => idOf J o.2) ho)
  obtain ⟨k, hk, he⟩ := List.mem_map.1 hmem
  have hk := List.mem_range.1 hk
  rw [← he]
  exact ⟨Int.natCast_nonneg k, Int.ofNat_lt.2 hk⟩

theorem KeyedDoc.exists_object (h : KeyedDoc J members) {k : Nat}
    (hk : k < (memberObjects members).length) :
    ∃ o ∈ memberObjects members, idOf J o.2 = k ∧
      ∀ o' ∈ memberObjects members, idOf J o'.2 = k → o' = o := by
  have hmem := h.ids.mem_iff.2 (List.mem_map_of_mem (f := Int.ofNat) (List.mem_range.2 hk))
  obtain ⟨o, ho, hid⟩ := List.mem_map.1 hmem
  refine ⟨o, ho, hid, fun o' ho' hid' => ?_⟩
  exact List.inj_on_of_nodup_map h.nodup ho' ho (hid'.trans hid.symm)

/-- A document whose node objects fill the slots of the table. -/
structure SpecDoc (J : JsonC) (members : List (String × Json)) : Prop where
  root : ∀ v, ("id", v) ∉ members
  ids : ((memberObjects members).map fun o => idOf J o.2).Perm
    ((List.range (memberObjects members).length).map Int.ofNat)
  node : ∀ o ∈ memberObjects members, NodeObject J o.2

theorem SpecDoc.keyed (h : SpecDoc J members) : KeyedDoc J members :=
  ⟨h.root, h.ids, fun o ho => (h.node o ho).keys, fun o ho => (h.node o ho).id⟩

/-- The array after the objects `done`. -/
def LoadedObjects (J : JsonC) (n : Nat) (done : List (Option String × List (String × Json)))
    (arr : List ArgNode) : Prop :=
  arr.length = n ∧ ∀ o ∈ done, ∃ node, at? arr (idOf J o.2) = some node ∧ Loaded J o.1 o.2 node

/-- **Every object ends up in the slot of its `id`.** -/
theorem jsonTreeParse_loads (h : SpecDoc J members)
    (hl : arr.length = (memberObjects members).length) :
    ∃ arr', jsonTreeParse J (.obj members) arr = .ok arr' ∧
      LoadedObjects J (memberObjects members).length (memberObjects members) arr' := by
  have hroot : buildNode J none members arr = .ok arr := buildNode_no_id h.root
  unfold jsonTreeParse
  rw [visit_eq_foldlM ctBuilder_acts, objects_obj, List.foldlM_cons, hroot, ok_bind]
  have hstart : LoadedObjects J (memberObjects members).length [] arr :=
    ⟨hl, fun o ho => absurd ho List.not_mem_nil⟩
  refine foldlM_total_done (LoadedObjects J (memberObjects members).length) [] hstart ?_
  rintro done o rest arr1 hsplit ⟨hl1, hI⟩
  rw [List.nil_append] at hsplit
  have ho : o ∈ memberObjects members := by
    rw [hsplit]
    exact List.mem_append_right _ List.mem_cons_self
  obtain ⟨h0, h1⟩ := h.keyed.id_range ho
  obtain ⟨arr2, harr, hl2, hframe, hnode⟩ := buildNode_spec o.1 (h.node o ho) h0
    (by rw [hl1]; exact h1)
  refine ⟨arr2, harr, hl2.trans hl1, fun o' ho' => ?_⟩
  rcases List.mem_append.1 ho' with ho' | ho'
  · have hne : idOf J o'.2 ≠ idOf J o.2 := by
      have hnd := h.keyed.nodup
      rw [hsplit, List.map_append, List.map_cons, List.nodup_append] at hnd
      exact hnd.2.2 _ (List.mem_map_of_mem (f := fun o => idOf J o.2) ho') _ List.mem_cons_self
    rw [hframe _ hne]
    exact hI o' ho'
  · rw [List.mem_singleton.1 ho']
    exact hnode

/-! ## Exact decoding -/

/-- An integer as the document writes it. -/
def exactInt (J : JsonC) : Json → Int
  | .int i => i
  | v => J.getInt v

/-- An integer, or a default for `null`. -/
def specInt (J : JsonC) (default : Int) : Json → Int
  | .null => default
  | v => exactInt J v

def specList : Json → List Json
  | .arr l => l
  | _ => []

/-- What the fields of a node must be for an object with these members. -/
structure Decodes (J : JsonC) (key : Option String) (members : List (String × Json))
    (node : ArgNode) : Prop where
  arg : node.arg = key.getD J.nullText
  valueType : node.valueType = specInt J 0 (memberOf members "value_type")
  ints : memberOf members "value" ≠ .null → node.valueType = 1 ∨ node.valueType = 2 →
    node.valueInt = (specList (memberOf members "value")).map fun x => toU64 (exactInt J x)
  text : memberOf members "value" ≠ .null → node.valueType = 3 →
    node.valueChar = J.getString (memberOf members "value")
  texts : memberOf members "value" = .null ∨ node.valueType = 4 →
    node.valueCharArray = (specList (memberOf members "value")).map J.getString
  operatorValue : node.operatorValue = loadOperator J (memberOf members "operator_value")
  operatorSibling : node.operatorSibling = loadOperator J (memberOf members "operator_sibling")
  operatorChild : node.operatorChild = loadOperator J (memberOf members "operator_child")
  mutex : node.mutex.getD [] = (specList (memberOf members "mutex")).map (exactInt J)
  mustHave : node.mustHave = J.getBoolean (memberOf members "must_have")
  weight : node.weight = specInt J 1 (memberOf members "weight")
  dependencyId : node.dependencyId = (specList (memberOf members "dependency_id")).map (exactInt J)
  mustChild : node.mustChild = J.getBoolean (memberOf members "must_child")
  childId : node.childId = (specList (memberOf members "child_id")).map (exactInt J)

def fitsInt : Json → Bool
  | .int i => -2 ^ 31 ≤ i ∧ i < 2 ^ 31
  | _ => true

def fitsInts : Json → Bool
  | .arr l => l.all fitsInt
  | v => fitsInt v

/-- An object that has every field, a boolean `must_child`, and integers that fit. -/
structure FullNode (members : List (String × Json)) : Prop where
  all : ∀ f : Field, ∃ v, (f.key, v) ∈ members
  mustChild : ∀ v, ("must_child", v) ∈ members → ∃ b, v = .bool b
  fits : ∀ m ∈ members, fitsInts m.2 = true

theorem getInt_eq_exact {v : Json} (h : fitsInt v = true) : J.getInt v = exactInt J v := by
  cases v with
  | int i =>
    obtain ⟨h0, h1⟩ := of_decide_eq_true h
    exact J.getInt_int h0 h1
  | _ => rfl

theorem map_getInt_eq_exact {l : List Json} (h : fitsInts (.arr l) = true) :
    l.map J.getInt = l.map (exactInt J) :=
  List.map_congr_left fun x hx => getInt_eq_exact (List.all_eq_true.1 h x hx)

theorem intOr_eq_spec {v : Json} (default : Int) (h : fitsInts v = true) :
    intOr J default v = specInt J default v := by
  cases v with
  | int i => exact getInt_eq_exact (J := J) (v := .int i) h
  | _ => rfl

theorem loadIds_specList {v : Json} {ids : List Int} (h : loadIds J v = .ok ids) :
    ids = (specList v).map J.getInt := by
  cases v with
  | null | arr =>
    cases h
    rfl
  | _ => cases h

theorem loadIds_eq_spec {v : Json} {ids : List Int} (h : fitsInts v = true)
    (hids : loadIds J v = .ok ids) : ids = (specList v).map (exactInt J) := by
  rw [loadIds_specList hids]
  cases v with
  | arr l => exact map_getInt_eq_exact h
  | _ => rfl

theorem elements_eq_specList {v : Json} {l : List Json} (h : v.elements = .ok l) :
    v = .arr l ∧ specList v = l := by
  cases v with
  | arr l' =>
    cases h
    exact ⟨rfl, rfl⟩
  | _ => cases h

/-- A full object is decoded exactly. -/
theorem Loaded.decodes {key : Option String} {node : ArgNode} (ho : NodeObject J members)
    (hfull : FullNode members) (h : Loaded J key members node) : Decodes J key members node := by
  have hmem : ∀ f : Field, (f.key, memberOf members f.key) ∈ members := by
    intro f
    obtain ⟨v, hv⟩ := hfull.all f
    rw [memberOf_eq ho.keys hv]
    exact hv
  have hset : ∀ f : Field, Settled members f (memberOf members f.key) := by
    intro f
    constructor
    · rintro rfl hnull
      obtain ⟨b, hb⟩ := hfull.mustChild _ (hmem .mustChild)
      rw [hnull] at hb
      cases hb
    · intro _ hnull
      obtain ⟨b, hb⟩ := hfull.mustChild _ hnull
      cases hb
  have hfield : ∀ f : Field, FieldIs J f (memberOf members f.key) node := fun f =>
    h.field f _ (hmem f) (hset f)
  have hfits : ∀ f : Field, fitsInts (memberOf members f.key) = true :=
    fun f => hfull.fits _ (hmem f)
  refine ⟨h.arg, (hfield .valueType).trans (intOr_eq_spec 0 (hfits .valueType)),
    fun hnull hty => ?_, fun hnull hty => ?_, fun hty => ?_, hfield .operatorValue,
    hfield .operatorSibling, hfield .operatorChild,
    loadIds_eq_spec (hfits .mutex) (hfield .mutex), hfield .mustHave,
    (hfield .weight).trans (intOr_eq_spec 1 (hfits .weight)),
    loadIds_eq_spec (hfits .dependencyId) (hfield .dependencyId), hfield .mustChild,
    loadIds_eq_spec (hfits .childId) (hfield .childId)⟩
  · obtain ⟨l, hl, he⟩ := ((valueIs_of_ne_null hnull).1 (hfield .value)).1 hty
    obtain ⟨harr, hspec⟩ := elements_eq_specList hl
    have hfit := hfits .value
    rw [show memberOf members Field.value.key = .arr l from harr] at hfit
    rw [he, hspec]
    exact List.map_congr_left fun x hx =>
      congrArg toU64 (getInt_eq_exact (List.all_eq_true.1 hfit x hx))
  · exact ((valueIs_of_ne_null hnull).1 (hfield .value)).2.1 hty
  · by_cases hnull : memberOf members "value" = .null
    · have hv := hfield .value
      rw [show memberOf members Field.value.key = .null from hnull] at hv
      rw [hnull]
      exact hv
    · obtain ⟨l, hl, he⟩ := ((valueIs_of_ne_null hnull).1 (hfield .value)).2.2
        (hty.resolve_left hnull)
      rw [he, (elements_eq_specList hl).2]

theorem length_malloc {α : Type} (garbage : Nat → α) (n : Nat) :
    (malloc garbage n).length = n := by
  simp [malloc]

end

/-- **Loading a specification is exact.** The node count is the number of objects below the
root, and every slot of the table holds the decoding of the one object with its
`id`, whatever the memory held. -/
theorem jsonTreeParse_exact (J : JsonC) (members : List (String × Json))
    (h : SpecDoc J members) (hfull : ∀ o ∈ memberObjects members, FullNode o.2) (heap : Heap) :
    ∃ n : Nat, n = (memberObjects members).length ∧
      (∃ count, visit jsoCount (.obj members) none 0 = .ok count ∧ count - 1 = n) ∧
      ∃ arr, jsonTreeParse J (.obj members) (malloc heap.node n) = .ok arr ∧ arr.length = n ∧
        ∀ k : Nat, k < n → ∃ o ∈ memberObjects members, idOf J o.2 = k ∧
          (∀ o' ∈ memberObjects members, idOf J o'.2 = k → o' = o) ∧
          ∃ node, at? arr k = some node ∧ Decodes J o.1 o.2 node := by
  refine ⟨(memberObjects members).length, rfl, ⟨_, jsoCount_visit members, by omega⟩, ?_⟩
  obtain ⟨arr, harr, hl, hloaded⟩ := jsonTreeParse_loads h (length_malloc heap.node _)
  refine ⟨arr, harr, hl, fun k hk => ?_⟩
  obtain ⟨o, ho, hid, huniq⟩ := h.keyed.exists_object hk
  obtain ⟨node, hnode, hload⟩ := hloaded o ho
  rw [hid] at hnode
  exact ⟨o, ho, hid, huniq, node, hnode, hload.decodes (h.node o ho) (hfull o ho)⟩

def rangeMembers (id : Int) (dependency child : Json) (nested : List (String × Json)) :
    List (String × Json) :=
  [("id", .int id), ("value_type", .int 1), ("value", .arr [.int 0, .int 8, .int 2]),
   ("operator_value", .null), ("operator_sibling", .str ","), ("operator_child", .null),
   ("mutex", .null), ("must_have", .bool false), ("dependency_id", dependency), ("weight", .null),
   ("must_child", .bool false), ("child_id", child)] ++ nested

/-- `-E` with a nested `stride=`, numbered from the inside. -/
def strideDoc : List (String × Json) :=
  [("-E", .obj (rangeMembers 1 .null (.arr [.int 0])
    [("stride=", .obj (rangeMembers 0 (.arr [.int 1]) .null []))]))]

section

variable {J : JsonC} {id : Int} {dependency child : Json} {nested : List (String × Json)}

theorem rangeMembers_nodeObject
    (hkeys : ((rangeMembers id dependency child nested).map Prod.fst).Nodup)
    (hd : IsList dependency) (hc : IsList child) :
    NodeObject J (rangeMembers id dependency child nested) := by
  refine ⟨hkeys, ⟨.int id, List.mem_cons_self⟩, fun f v hf hv => ?_, fun v hv => ?_⟩
  · rw [← memberOf_eq hkeys hv]
    rcases hf with rfl | rfl | rfl
    · exact .inl rfl
    · exact hd
    · exact hc
  · have hval : v = .arr [.int 0, .int 8, .int 2] := (memberOf_eq hkeys hv).symm
    subst hval
    exact ⟨[("id", .int id), ("value_type", .int 1)], _, .int 1, rfl,
      List.mem_cons_of_mem _ List.mem_cons_self, List.mem_cons_self, fun _ => .inr ⟨_, rfl⟩⟩

theorem rangeMembers_all (f : Field) :
    ∃ v, (f.key, v) ∈ rangeMembers id dependency child nested := by
  obtain ⟨v, hv⟩ : ∃ v, (rangeMembers id dependency child nested).find? (fun m => m.1 = f.key) =
      some (f.key, v) := by
    cases f with
    | _ => exact ⟨_, rfl⟩
  exact ⟨v, List.mem_of_find?_eq_some hv⟩

theorem rangeMembers_fullNode
    (hkeys : ((rangeMembers id dependency child nested).map Prod.fst).Nodup)
    (hfits : ∀ m ∈ rangeMembers id dependency child nested, fitsInts m.2 = true) :
    FullNode (rangeMembers id dependency child nested) :=
  ⟨rangeMembers_all, fun _ hv => ⟨false, (memberOf_eq hkeys hv).symm⟩, hfits⟩

end

def plainJsonC : JsonC := ⟨fun _ => 0, fun _ => 0, fun _ => false, fun _ => "", ""⟩

/-- Memory full of `-J` nodes. -/
def plainHeap : Heap := ⟨fun _ => plainNode "-J", fun _ => ⟨0, 0, ""⟩, fun _ => 0, "", fun _ => 0⟩

theorem strideDoc_objects : memberObjects strideDoc =
    [(some "-E", rangeMembers 1 .null (.arr [.int 0])
      [("stride=", .obj (rangeMembers 0 (.arr [.int 1]) .null []))]),
     (some "stride=", rangeMembers 0 (.arr [.int 1]) .null [])] := by
  simp [strideDoc, memberObjects, elementObjects, objects, rangeMembers]

theorem strideDoc_spec : SpecDoc plainJsonC strideDoc := by
  refine ⟨fun v hv => ?_, ?_, fun o ho => ?_⟩
  · simp [strideDoc] at hv
  · rw [strideDoc_objects]
    exact List.Perm.swap 0 1 []
  · rw [strideDoc_objects] at ho
    rcases List.mem_cons.1 ho with rfl | ho
    · exact rangeMembers_nodeObject (by decide) (.inl rfl) (.inr ⟨_, rfl⟩)
    · rw [List.mem_singleton.1 ho]
      exact rangeMembers_nodeObject (by decide) (.inr ⟨_, rfl⟩) (.inl rfl)

/-- The nested node ends up in slot 0, with its list of three numbers. -/
theorem strideDoc_exact : ∃ arr, jsonTreeParse plainJsonC (.obj strideDoc)
    (malloc plainHeap.node 2) = .ok arr ∧ ∃ node, at? arr 0 = some node ∧ node.arg = "stride=" ∧
      node.valueInt = [0, 8, 2] ∧ node.dependencyId = [1] := by
  have hfull : ∀ o ∈ memberObjects strideDoc, FullNode o.2 := by
    intro o ho
    rw [strideDoc_objects] at ho
    rcases List.mem_cons.1 ho with rfl | ho
    · exact rangeMembers_fullNode (by decide) (by decide)
    · rw [List.mem_singleton.1 ho]
      exact rangeMembers_fullNode (by decide) (by decide)
  obtain ⟨n, hn, -, arr, harr, -, hslots⟩ := jsonTreeParse_exact plainJsonC strideDoc strideDoc_spec
    hfull plainHeap
  rw [strideDoc_objects] at hn
  subst hn
  obtain ⟨o, -, -, huniq, node, hnode, hdec⟩ := hslots 0 (by decide)
  have ho : (some "stride=", rangeMembers 0 (.arr [.int 1]) .null []) = o := by
    refine huniq _ ?_ rfl
    rw [strideDoc_objects]
    exact List.mem_cons_of_mem _ List.mem_cons_self
  subst ho
  refine ⟨arr, harr, node, hnode, hdec.arg, ?_, hdec.dependencyId⟩
  have hne : Json.arr [.int 0, .int 8, .int 2] ≠ .null := nofun
  exact hdec.ints hne (.inl hdec.valueType)

end ConFuzz
