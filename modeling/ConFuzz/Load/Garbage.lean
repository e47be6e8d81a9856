import ConFuzz.Load.Document
import ConFuzz.Load.Order

/-!
# What the memory leaves in the table

The array that `json_tree_parse` fills is not initialised. A member that is there sets
its field, null or not, but for a null `must_child`; a key that is missing leaves
the field as the memory had it (`LeftOut`). So two memories lead to the same table
exactly when both can be loaded into and agree on what the objects leave out
(`Determined`), and all of them do exactly when every object has all the keys
(`FieldsGiven`) and its value suits any type.
-/

namespace ConFuzz

open ConFuzz.CLib

section

variable {J : JsonC} {members : List (String × Json)}

theorem NodeObject.typed_rest (ho : NodeObject J members) :
    ∀ {l done : List (String × Json)} {type : Int}, members = done ++ l →
      (∀ w, (Field.valueType.key, w) ∈ done → type = intOr J 0 w) → Typed J type l
  | [], _, _, _, _ => trivial
  | m :: l, done, type, hsplit, htype => by
    have hmem : m ∈ members := by
      rw [hsplit]
      exact List.mem_append_right _ List.mem_cons_self
    refine ⟨fun f hf hk => ho.ids f m.2 hf (by rw [hk]; exact hmem), fun hk hty => ?_, ?_⟩
    · obtain ⟨w, hw, hlist⟩ := ho.value_done (v := m.2) (by rw [hk]; exact hsplit)
      rw [htype w hw] at hty
      exact hlist hty
    · have hsplit' : members = (done ++ [m]) ++ l := by rw [hsplit]; simp
      refine ho.typed_rest hsplit' fun w hw => ?_
      rcases List.mem_append.1 hw with hw | hw
      · have hne := ne_of_keys_nodup (hsplit ▸ ho.keys) (.inl hw)
        rw [if_neg (Ne.symm hne)]
        exact htype w hw
      · rw [← List.mem_singleton.1 hw, if_pos rfl]

theorem NodeObject.typed (ho : NodeObject J members) (type : Int) : Typed J type members :=
  ho.typed_rest (List.nil_append _).symm fun _ hw => absurd hw List.not_mem_nil

/-! ## Slots -/

/-- The array after the objects `done`: each of them has loaded its own slot, the others are
as before. -/
structure Slots (J : JsonC) (arr : List ArgNode)
    (done : List (Option String × List (String × Json))) (arr' : List ArgNode) : Prop where
  length : arr'.length = arr.length
  frame : ∀ j, (∀ o ∈ done, idOf J o.2 ≠ j) → at? arr' j = at? arr j
  loaded : ∀ o ∈ done, ∃ node node', at? arr (idOf J o.2) = some node ∧
    loadMembers J o.2 { node with arg := o.1.getD J.nullText } = .ok node' ∧
    at? arr' (idOf J o.2) = some node'

theorem Slots.refl (arr : List ArgNode) : Slots J arr [] arr :=
  ⟨rfl, fun _ _ => rfl, fun _ ho => absurd ho List.not_mem_nil⟩

theorem Slots.next {arr arr' : List ArgNode}
    {done rest : List (Option String × List (String × Json))}
    {o : Option String × List (String × Json)} (hdoc : KeyedDoc J members)
    (hl : arr.length = (memberObjects members).length)
    (hsplit : memberObjects members = done ++ o :: rest) (h : Slots J arr done arr') :
    ∃ node, at? arr (idOf J o.2) = some node ∧
      buildNode J o.1 o.2 arr' = (loadMembers J o.2 { node with arg := o.1.getD J.nullText } >>=
        fun n => .ok (put arr' (idOf J o.2) n)) ∧
      ∀ node', loadMembers J o.2 { node with arg := o.1.getD J.nullText } = .ok node' →
        Slots J arr (done ++ [o]) (put arr' (idOf J o.2) node') := by
  have ho : o ∈ memberObjects members := by
    rw [hsplit]
    exact List.mem_append_right _ List.mem_cons_self
  obtain ⟨h0, h1⟩ := hdoc.id_range ho
  obtain ⟨node, hnode⟩ := at?_of_mem_range h0 (show _ < (arr.length : Int) by rw [hl]; exact h1)
  have hfresh : ∀ o' ∈ done, idOf J o'.2 ≠ idOf J o.2 := by
    intro o' ho'
    have hnd := hdoc.nodup
    rw [hsplit, List.map_append, List.map_cons, List.nodup_append] at hnd
    exact hnd.2.2 _ (List.mem_map_of_mem (f := fun o => idOf J o.2) ho') _ List.mem_cons_self
  have hnode' : at? arr' (idOf J o.2) = some node := by
    rw [h.frame _ hfresh]
    exact hnode
  obtain ⟨v, hv⟩ := hdoc.id o ho
  have hid : idOf J o.2 = J.getInt v := by rw [idOf, memberOf_eq (hdoc.keys o ho) hv]
  refine ⟨node, hnode, ?_, fun node' hload => ⟨?_, fun j hj => ?_, fun o' ho' => ?_⟩⟩
  · rw [hid]
    exact buildNode_eq (hdoc.keys o ho) hv (by rw [← hid]; exact hnode')
  · rw [length_put, h.length]
  · rw [at?_put _ hnode', if_neg fun he =>
      hj o (List.mem_append_right _ List.mem_cons_self) he.symm]
    exact h.frame j fun o' ho' => hj o' (List.mem_append_left _ ho')
  · rcases List.mem_append.1 ho' with ho' | ho'
    · rw [at?_put _ hnode', if_neg (hfresh o' ho')]
      exact h.loaded o' ho'
    · rw [List.mem_singleton.1 ho']
      exact ⟨node, node', hnode, hload, by rw [at?_put _ hnode', if_pos rfl]⟩

theorem jsonTreeParse_eq {arr : List ArgNode} (hroot : ∀ v, ("id", v) ∉ members) :
    jsonTreeParse J (.obj members) arr =
      (memberObjects members).foldlM (fun arr o => buildNode J o.1 o.2 arr) arr := by
  have hskip : buildNode J none members arr = .ok arr := buildNode_no_id hroot
  unfold jsonTreeParse
  rw [visit_eq_foldlM ctBuilder_acts, objects_obj, List.foldlM_cons, hskip, ok_bind]

/-- Every slot of a table that was loaded holds its object, read into what the memory held. -/
theorem jsonTreeParse_slots {arr arr' : List ArgNode} (hdoc : KeyedDoc J members)
    (hl : arr.length = (memberObjects members).length)
    (h : jsonTreeParse J (.obj members) arr = .ok arr') :
    Slots J arr (memberObjects members) arr' := by
  rw [jsonTreeParse_eq hdoc.root] at h
  refine foldlM_inv_done (Slots J arr) [] (.refl arr) ?_ h
  intro done o rest arr1 arr2 hsplit hI hb
  obtain ⟨node, -, heq, hnext⟩ := hI.next hdoc hl hsplit
  rw [heq] at hb
  obtain ⟨node', hload, hb⟩ := bind_eq_ok.1 hb
  cases hb
  exact hnext node' hload

/-- The document loads when every object does. -/
theorem jsonTreeParse_total {arr : List ArgNode} (hdoc : KeyedDoc J members)
    (hl : arr.length = (memberObjects members).length)
    (htyped : ∀ o ∈ memberObjects members, ∀ node, at? arr (idOf J o.2) = some node →
      Typed J node.valueType o.2) :
    ∃ arr', jsonTreeParse J (.obj members) arr = .ok arr' := by
  have htotal : ∃ arr', (memberObjects members).foldlM (fun arr o => buildNode J o.1 o.2 arr) arr =
      .ok arr' ∧ Slots J arr (memberObjects members) arr' := by
    refine foldlM_total_done (Slots J arr) [] (.refl arr) ?_
    intro done o rest arr1 hsplit hI
    have hsplit : memberObjects members = done ++ o :: rest := hsplit
    obtain ⟨node, hnode, heq, hnext⟩ := hI.next hdoc hl hsplit
    have ho : o ∈ memberObjects members := by
      rw [hsplit]
      exact List.mem_append_right _ List.mem_cons_self
    obtain ⟨node', hload⟩ := loadMembers_returns (J := J) (l := o.2)
      (a := { node with arg := o.1.getD J.nullText }) |>.2 (htyped o ho node hnode)
    exact ⟨_, by rw [heq, hload]; rfl, hnext node' hload⟩
  obtain ⟨arr', h, -⟩ := htotal
  exact ⟨arr', by rw [jsonTreeParse_eq hdoc.root]; exact h⟩

end

/-! ## Two memories -/

/-- The nodes agree on a field, or on the length of its list. A value may differ. -/
def AgreeAt (f : Field) (a b : ArgNode) : Prop :=
  match f with
  | .value => True
  | .mutex => (a.mutex.getD []).length = (b.mutex.getD []).length
  | .dependencyId => a.dependencyId.length = b.dependencyId.length
  | .childId => a.childId.length = b.childId.length
  | f => SameField f a b

/-- The document loads into both memories, and the two tables agree on every node. -/
def TablesAgree (J : JsonC) (members : List (String × Json)) (arr1 arr2 : List ArgNode) : Prop :=
  ∃ t1 t2, jsonTreeParse J (.obj members) arr1 = .ok t1 ∧
    jsonTreeParse J (.obj members) arr2 = .ok t2 ∧
    ∀ k : Nat, k < (memberObjects members).length →
      ∃ a b, at? t1 k = some a ∧ at? t2 k = some b ∧ ∀ f, AgreeAt f a b

/-- No member sets the field. A null `must_child` does not set its own field; it sets
`must_have`. -/
def LeftOut (members : List (String × Json)) (f : Field) : Prop :=
  (∀ v, (f.key, v) ∈ members → f = .mustChild ∧ v = .null) ∧
    (f = .mustHave → (Field.mustChild.key, .null) ∉ members)

/-- Two nodes of the memory can be loaded into, and agree on every field that the object leaves
out. -/
structure Determined (J : JsonC) (members : List (String × Json)) (a b : ArgNode) : Prop where
  typed : Typed J a.valueType members ∧ Typed J b.valueType members
  leftOut : ∀ f, LeftOut members f → AgreeAt f a b

/-- Every key but that of the value is there, and `must_child` is not null. -/
def FieldsGiven (members : List (String × Json)) : Prop :=
  ∀ f : Field, f ≠ .value → ∃ v, (f.key, v) ∈ members ∧ (f = .mustChild → v ≠ .null)

section

variable {J : JsonC} {members : List (String × Json)} {a b c : ArgNode}

theorem FieldIs.of_same {f : Field} {v : Json} (hne : f ≠ .value) (h : SameField f a b)
    (ha : FieldIs J f v a) : FieldIs J f v b := by
  cases f with
  | value => exact absurd rfl hne
  | _ => simp_all [SameField, FieldIs]

theorem loadMembers_fieldIs {f : Field} {v : Json} (hkeys : (members.map Prod.fst).Nodup)
    (h : loadMembers J members a = .ok b) (hv : (f.key, v) ∈ members) (hne : f ≠ .value)
    (hset : Settled members f v) : FieldIs J f v b := by
  obtain ⟨a1, a2, -, -, hload, hs⟩ := loadMembers_at hkeys h hv hset.2
  exact (loadField_sets hload hset.1).of_same hne hs

theorem LeftOut.same {f : Field} (hkeys : (members.map Prod.fst).Nodup)
    (hout : LeftOut members f) (h : loadMembers J members a = .ok b) : SameField f a b := by
  by_cases hin : ∃ v, (f.key, v) ∈ members
  · obtain ⟨v, hv⟩ := hin
    obtain ⟨rfl, rfl⟩ := hout.1 v hv
    obtain ⟨a1, a2, hs1, -, hload, hs2⟩ := loadMembers_at hkeys h hv nofun
    cases hload
    exact SameField.trans hs1 hs2
  · refine loadMembers_frame h (fun m hm he => hin ⟨m.2, ?_⟩) hout.2
    rw [← he]
    exact hm

theorem FieldIs.agreeAt {f : Field} {v : Json} (ha : FieldIs J f v a) (hb : FieldIs J f v b) :
    AgreeAt f a b := by
  cases f with
  | value => trivial
  | mutex | dependencyId | childId => exact congrArg List.length (Except.ok.inj (ha.symm.trans hb))
  | _ => exact ha.trans hb.symm

theorem AgreeAt.of_same {f : Field} {a' b' : ArgNode} (ha : SameField f a a')
    (hb : SameField f b b') (h : AgreeAt f a' b') : AgreeAt f a b := by
  cases f with
  | value => trivial
  | mutex | dependencyId | childId =>
    simp only [SameField, AgreeAt] at ha hb h ⊢
    rw [ha, hb]
    exact h
  | _ => exact ha.trans (SameField.trans h hb.symm)

theorem agreeAt_of_set {f : Field} {a' b' : ArgNode} (hkeys : (members.map Prod.fst).Nodup)
    (hset : ¬ LeftOut members f) (ha : loadMembers J members a = .ok a')
    (hb : loadMembers J members b = .ok b') : AgreeAt f a' b' := by
  by_cases hval : f = .value
  · subst hval
    trivial
  · by_cases hmc : f = .mustHave ∧ (Field.mustChild.key, .null) ∈ members
    · obtain ⟨rfl, hnull⟩ := hmc
      show a'.mustHave = b'.mustHave
      rw [Bool.eq_iff_iff, mustHave_of_null hkeys ha hnull, mustHave_of_null hkeys hb hnull]
    · have hno : f = .mustHave → (Field.mustChild.key, .null) ∉ members := fun hf hn => hmc ⟨hf, hn⟩
      have hgiven : ∃ v, (f.key, v) ∈ members ∧ ¬ (f = .mustChild ∧ v = .null) := by
        by_contra hnone
        refine hset ⟨fun v hv => ?_, hno⟩
        by_contra hne
        exact hnone ⟨v, hv, hne⟩
      obtain ⟨v, hv, hne⟩ := hgiven
      have hs : Settled members f v := ⟨fun hf hn => hne ⟨hf, hn⟩, hno⟩
      exact (loadMembers_fieldIs hkeys ha hv hval hs).agreeAt
        (loadMembers_fieldIs hkeys hb hv hval hs)

theorem loadMembers_determined (arg : String) (hkeys : (members.map Prod.fst).Nodup) :
    (∃ a' b', loadMembers J members { a with arg := arg } = .ok a' ∧
      loadMembers J members { b with arg := arg } = .ok b' ∧ ∀ f, AgreeAt f a' b') ↔
      Determined J members a b := by
  have hkept : ∀ {f : Field} {c c' : ArgNode}, LeftOut members f →
      loadMembers J members { c with arg := arg } = .ok c' → SameField f c c' := by
    intro f c c' hout h
    refine SameField.trans ?_ (hout.same hkeys h)
    cases f with
    | value => exact ⟨rfl, rfl, rfl⟩
    | _ => rfl
  constructor
  · rintro ⟨a', b', ha, hb, h⟩
    exact ⟨⟨loadMembers_returns (a := { a with arg := arg }).1 ⟨a', ha⟩,
      loadMembers_returns (a := { b with arg := arg }).1 ⟨b', hb⟩⟩,
      fun f hout => (h f).of_same (hkept hout ha) (hkept hout hb)⟩
  · intro h
    obtain ⟨a', ha⟩ := loadMembers_returns (a := { a with arg := arg }).2 h.typed.1
    obtain ⟨b', hb⟩ := loadMembers_returns (a := { b with arg := arg }).2 h.typed.2
    refine ⟨a', b', ha, hb, fun f => ?_⟩
    by_cases hout : LeftOut members f
    · exact (h.leftOut f hout).of_same (hkept hout ha).symm (hkept hout hb).symm
    · exact agreeAt_of_set hkeys hout ha hb

/-! ## A memory for every missing key -/

/-- A node that has no field in common with a plain one, and no type that is read either. -/
def otherNode : ArgNode :=
  { plainNode "" with
    valueType := 5
    operatorValue := ","
    operatorSibling := ","
    operatorChild := ","
    mutex := some [0]
    mustHave := true
    weight := 2
    mustChild := true
    childId := [0]
    dependencyId := [0] }

theorem not_agreeAt_other {f : Field} (hne : f ≠ .value) :
    ¬ AgreeAt f (plainNode "") otherNode := by
  cases f with
  | value => exact absurd rfl hne
  | _ => simp [SameField, AgreeAt, plainNode, otherNode]

theorem fieldsGiven_iff (hkeys : (members.map Prod.fst).Nodup) :
    FieldsGiven members ↔ ∀ f, LeftOut members f → f = .value := by
  constructor
  · intro h f hout
    by_contra hf
    obtain ⟨v, hv, hne⟩ := h f hf
    obtain ⟨hmc, hnull⟩ := hout.1 v hv
    exact hne hmc hnull
  · intro h f hf
    by_contra hno
    have hv : ∀ v, (f.key, v) ∈ members → f = .mustChild ∧ v = .null := by
      intro v hv
      by_contra hne
      exact hno ⟨v, hv, fun hmc hnull => hne ⟨hmc, hnull⟩⟩
    by_cases hnull : (Field.mustChild.key, .null) ∈ members
    · -- a null `must_child` may stand in for a `must_have`, but leaves its own field
      have hout : LeftOut members .mustChild :=
        ⟨fun v hv => ⟨rfl, by rw [← memberOf_eq hkeys hv, memberOf_eq hkeys hnull]⟩, nofun⟩
      cases h .mustChild hout
    · exact hf (h f ⟨hv, fun _ => hnull⟩)

/-- Two memories lead to the same table when they do so for every object. -/
theorem tablesAgree_iff (hdoc : KeyedDoc J members) {arr1 arr2 : List ArgNode}
    (h1 : arr1.length = (memberObjects members).length)
    (h2 : arr2.length = (memberObjects members).length) :
    TablesAgree J members arr1 arr2 ↔ ∀ o ∈ memberObjects members, ∀ a b,
      at? arr1 (idOf J o.2) = some a → at? arr2 (idOf J o.2) = some b → Determined J o.2 a b := by
  constructor
  · rintro ⟨t1, t2, hp1, hp2, hsame⟩ o ho a b ha hb
    obtain ⟨a0, a', ha0, hla, hta⟩ := (jsonTreeParse_slots hdoc h1 hp1).loaded o ho
    obtain ⟨b0, b', hb0, hlb, htb⟩ := (jsonTreeParse_slots hdoc h2 hp2).loaded o ho
    rw [ha] at ha0
    rw [hb] at hb0
    cases ha0
    cases hb0
    refine (loadMembers_determined _ (hdoc.keys o ho)).1 ⟨a', b', hla, hlb, ?_⟩
    have hid := hdoc.id_range ho
    obtain ⟨a1, b1, ha1, hb1, hagree⟩ := hsame (idOf J o.2).toNat (by omega)
    rw [Int.toNat_of_nonneg hid.1] at ha1 hb1
    rw [hta] at ha1
    rw [htb] at hb1
    cases ha1
    cases hb1
    exact hagree
  · intro hdet
    have hat : ∀ o ∈ memberObjects members, (∃ a, at? arr1 (idOf J o.2) = some a) ∧
        ∃ b, at? arr2 (idOf J o.2) = some b := by
      intro o ho
      obtain ⟨hid0, hid1⟩ := hdoc.id_range ho
      exact ⟨at?_of_mem_range hid0 (by rw [h1]; exact hid1),
        at?_of_mem_range hid0 (by rw [h2]; exact hid1)⟩
    obtain ⟨t1, hp1⟩ := jsonTreeParse_total hdoc h1 fun o ho a ha => by
      obtain ⟨-, b, hb⟩ := hat o ho
      exact (hdet o ho a b ha hb).typed.1
    obtain ⟨t2, hp2⟩ := jsonTreeParse_total hdoc h2 fun o ho b hb => by
      obtain ⟨⟨a, ha⟩, -⟩ := hat o ho
      exact (hdet o ho a b ha hb).typed.2
    refine ⟨t1, t2, hp1, hp2, fun k hk => ?_⟩
    obtain ⟨o, ho, hid, -⟩ := hdoc.exists_object hk
    obtain ⟨a, a', ha, hla, hta⟩ := (jsonTreeParse_slots hdoc h1 hp1).loaded o ho
    obtain ⟨b, b', hb, hlb, htb⟩ := (jsonTreeParse_slots hdoc h2 hp2).loaded o ho
    obtain ⟨a1, b1, hla1, hlb1, hagree⟩ :=
      (loadMembers_determined _ (hdoc.keys o ho)).2 (hdet o ho a b ha hb)
    rw [hla] at hla1
    rw [hlb] at hlb1
    cases hla1
    cases hlb1
    rw [hid] at hta htb
    exact ⟨a', b', hta, htb, hagree⟩

end

/-- **When the document determines the table.** Two memories lead to tables that agree on the types,
operators, flags, weights and list lengths exactly when each can be loaded into and they
agree on what the objects leave out. All memories do exactly when every object gives all
these keys, `must_child` not as null, and has a list wherever some type asks for one. -/
theorem jsonTreeParse_memoryFree (J : JsonC) (members : List (String × Json))
    (hdoc : KeyedDoc J members) :
    (∀ arr1 arr2, arr1.length = (memberObjects members).length →
      arr2.length = (memberObjects members).length →
      (TablesAgree J members arr1 arr2 ↔ ∀ o ∈ memberObjects members, ∀ a b,
        at? arr1 (idOf J o.2) = some a → at? arr2 (idOf J o.2) = some b →
          Determined J o.2 a b)) ∧
    ((∀ arr1 arr2, arr1.length = (memberObjects members).length →
      arr2.length = (memberObjects members).length → TablesAgree J members arr1 arr2) ↔
      ∀ o ∈ memberObjects members, FieldsGiven o.2 ∧ ∀ type, Typed J type o.2) := by
  refine ⟨fun arr1 arr2 h1 h2 => tablesAgree_iff hdoc h1 h2, fun hall o ho => ?_, ?_⟩
  · have hdet : ∀ a b, Determined J o.2 a b := by
      intro a b
      obtain ⟨hid0, hid1⟩ := hdoc.id_range ho
      have hrep : ∀ c : ArgNode, at? (List.replicate (memberObjects members).length c)
          (idOf J o.2) = some c := by
        intro c
        obtain ⟨c', hc⟩ := at?_of_mem_range hid0
          (show _ < ((List.replicate (memberObjects members).length c).length : Int) by
            rw [List.length_replicate]; exact hid1)
        rw [hc, List.eq_of_mem_replicate (mem_of_at? hc)]
      exact (tablesAgree_iff hdoc List.length_replicate List.length_replicate).1
        (hall _ _ List.length_replicate List.length_replicate) o ho a b (hrep a) (hrep b)
    refine ⟨(fieldsGiven_iff (hdoc.keys o ho)).2 fun f hout => ?_, fun type => ?_⟩
    · by_contra hf
      exact not_agreeAt_other hf ((hdet (plainNode "") otherNode).leftOut f hout)
    · exact (hdet { plainNode "" with valueType := type } (plainNode "")).typed.1
  · intro hgiven arr1 arr2 h1 h2
    refine (tablesAgree_iff hdoc h1 h2).2 fun o ho a b _ _ => ?_
    obtain ⟨hfields, htyped⟩ := hgiven o ho
    refine ⟨⟨htyped _, htyped _⟩, fun f hout => ?_⟩
    rw [(fieldsGiven_iff (hdoc.keys o ho)).1 hfields f hout]
    trivial

/-- Both objects of `-E` have all the keys. -/
theorem strideDoc_memoryFree : TablesAgree plainJsonC strideDoc [plainNode "", plainNode ""]
    [otherNode, otherNode] := by
  have hlength : ∀ a b : ArgNode, [a, b].length = (memberObjects strideDoc).length := by
    intro a b
    rw [strideDoc_objects]
    rfl
  refine (jsonTreeParse_memoryFree plainJsonC strideDoc strideDoc_spec.keyed).2.2
    (fun o ho => ⟨fun f _ => ?_, (strideDoc_spec.node o ho).typed⟩) _ _ (hlength _ _) (hlength _ _)
  have hkeys := strideDoc_spec.keyed.keys o ho
  rw [strideDoc_objects] at ho
  have hrange : ∃ id dependency child nested, o.2 = rangeMembers id dependency child nested := by
    rcases List.mem_cons.1 ho with rfl | ho
    · exact ⟨_, _, _, _, rfl⟩
    · rw [List.mem_singleton.1 ho]
      exact ⟨_, _, _, _, rfl⟩
  obtain ⟨id, dependency, child, nested, hr⟩ := hrange
  rw [hr] at hkeys ⊢
  obtain ⟨v, hv⟩ := rangeMembers_all f
  refine ⟨v, hv, ?_⟩
  rintro rfl
  rw [← memberOf_eq hkeys hv]
  exact nofun

/-- `-E` with its dependencies under another key. -/
def misspelledDoc : List (String × Json) :=
  [("-E", .obj [("id", .int 0), ("dependencies_id", .null)])]

theorem misspelledDoc_objects : memberObjects misspelledDoc =
    [(some "-E", [("id", .int 0), ("dependencies_id", .null)])] := by
  simp [misspelledDoc, memberObjects, objects]

theorem misspelledDoc_not_memoryFree : KeyedDoc plainJsonC misspelledDoc ∧
    ¬ TablesAgree plainJsonC misspelledDoc [plainNode ""]
      [{ plainNode "" with dependencyId := [0] }] := by
  constructor
  · refine ⟨fun v hv => ?_, ?_, fun o ho => ?_, fun o ho => ?_⟩
    · simp [misspelledDoc] at hv
    · rw [misspelledDoc_objects]
      exact .refl _
    · rw [misspelledDoc_objects] at ho
      rw [List.mem_singleton.1 ho]
      decide
    · rw [misspelledDoc_objects] at ho
      rw [List.mem_singleton.1 ho]
      exact ⟨.int 0, List.mem_cons_self⟩
  · rintro ⟨t1, t2, h1, h2, hsame⟩
    obtain ⟨a, b, ha, hb, hagree⟩ := hsame 0 (by rw [misspelledDoc_objects]; decide)
    cases h1
    cases h2
    cases ha
    cases hb
    cases hagree .dependencyId

end ConFuzz
