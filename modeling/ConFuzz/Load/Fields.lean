import ConFuzz.Model.Load

/-!
# One object of the specification

`FieldIs J f v node` says that field `f` of a node is what the member `v` means.
Loading a member establishes it for its own field and keeps it for every other
one, except that a value is read by the type that is there, and that a null
`must_child` resets `must_have`. Hence a node object, whatever the order of its
members, is loaded field by field (`buildNode_spec`), as long as the type of its
value comes before the value.
-/

namespace ConFuzz

open ConFuzz.CLib

section

variable {J : JsonC} {f g : Field} {v w : Json} {node node' : ArgNode}

def intOr (J : JsonC) (default : Int) : Json → Int
  | .null => default
  | v => J.getInt v

/-- The value of a node is what `v` means for its type. -/
def ValueIs (J : JsonC) (v : Json) (node : ArgNode) : Prop :=
  match v with
  | .null => node.valueCharArray = []
  | v =>
    (node.valueType = 1 ∨ node.valueType = 2 →
      ∃ l, v.elements = .ok l ∧ node.valueInt = l.map fun x => toU64 (J.getInt x)) ∧
    (node.valueType = 3 → node.valueChar = J.getString v) ∧
    (node.valueType = 4 → ∃ l, v.elements = .ok l ∧ node.valueCharArray = l.map J.getString)

/-- Field `f` of a node is what the member `v` means. -/
def FieldIs (J : JsonC) (f : Field) (v : Json) (node : ArgNode) : Prop :=
  match f with
  | .valueType => node.valueType = intOr J 0 v
  | .value => ValueIs J v node
  | .operatorValue => node.operatorValue = loadOperator J v
  | .operatorSibling => node.operatorSibling = loadOperator J v
  | .operatorChild => node.operatorChild = loadOperator J v
  | .mutex => loadIds J v = .ok (node.mutex.getD [])
  | .mustHave => node.mustHave = J.getBoolean v
  | .weight => node.weight = intOr J 1 v
  | .dependencyId => loadIds J v = .ok node.dependencyId
  | .mustChild => node.mustChild = J.getBoolean v
  | .childId => loadIds J v = .ok node.childId

theorem loadValue_of_ne_null (hv : v ≠ .null) : loadValue J v node =
    if node.valueType = 1 ∨ node.valueType = 2 then
      (v.elements >>= fun l =>
        .ok { node with valueInt := l.map fun x => toU64 (J.getInt x) })
    else if node.valueType = 3 then .ok { node with valueChar := J.getString v }
    else if node.valueType = 4 then
      (v.elements >>= fun l => .ok { node with valueCharArray := l.map J.getString })
    else .ok node := by
  cases v with
  | null => exact absurd rfl hv
  | _ => rfl

theorem valueIs_of_ne_null (hv : v ≠ .null) : ValueIs J v node ↔
    (node.valueType = 1 ∨ node.valueType = 2 →
      ∃ l, v.elements = .ok l ∧ node.valueInt = l.map fun x => toU64 (J.getInt x)) ∧
    (node.valueType = 3 → node.valueChar = J.getString v) ∧
    (node.valueType = 4 → ∃ l, v.elements = .ok l ∧ node.valueCharArray = l.map J.getString) := by
  cases v with
  | null => exact absurd rfl hv
  | _ => exact Iff.rfl

theorem loadIds_of_ne_null (hv : v ≠ .null) :
    loadIds J v = (v.elements >>= fun l => .ok (l.map J.getInt)) := by
  cases v with
  | null => exact absurd rfl hv
  | _ => rfl

theorem loadValue_spec (h : loadValue J v node = .ok node') :
    ValueIs J v node' ∧ ∃ ints text texts, node' =
      { node with valueInt := ints, valueChar := text, valueCharArray := texts } := by
  by_cases hv : v = .null
  · subst hv
    cases h
    exact ⟨rfl, node.valueInt, node.valueChar, [], rfl⟩
  · rw [loadValue_of_ne_null hv] at h
    rw [valueIs_of_ne_null hv]
    split at h
    · rename_i hty
      obtain ⟨l, hl, h⟩ := bind_eq_ok.1 h
      cases h
      refine ⟨⟨fun _ => ⟨l, hl, rfl⟩, fun h3 => ?_, fun h4 => ?_⟩, _, _, _, rfl⟩
      · simp only at h3; omega
      · simp only at h4; omega
    · rename_i hty
      split at h
      · rename_i h3
        cases h
        refine ⟨⟨fun h12 => absurd h12 hty, fun _ => rfl, fun h4 => ?_⟩, _, _, _, rfl⟩
        simp only at h4; omega
      · rename_i h3
        split at h
        · obtain ⟨l, hl, h⟩ := bind_eq_ok.1 h
          cases h
          exact ⟨⟨fun h12 => absurd h12 hty, fun h => absurd h h3, fun _ => ⟨l, hl, rfl⟩⟩, _, _, _,
            rfl⟩
        · rename_i h4
          cases h
          exact ⟨⟨fun h12 => absurd h12 hty, fun h => absurd h h3, fun h => absurd h h4⟩, _, _, _,
            rfl⟩

/-- Loading a member sets its field. -/
theorem loadField_sets (h : loadField J f v node = .ok node') (hmc : f = .mustChild → v ≠ .null) :
    FieldIs J f v node' := by
  cases f with
  | value => exact (loadValue_spec h).1
  | operatorValue | operatorSibling | operatorChild =>
    cases h
    rfl
  | valueType | mustHave | weight =>
    cases v with
    | null => cases h; rfl
    | _ => cases h; rfl
  | mustChild =>
    cases v with
    | null => exact absurd rfl (hmc rfl)
    | _ => cases h; rfl
  | dependencyId | childId =>
    obtain ⟨l, hl, h⟩ := bind_eq_ok.1 h
    cases h
    exact hl
  | mutex =>
    by_cases hv : v = .null
    · subst hv
      cases h
      show Except.ok [] = Except.ok _
      cases node.mutex with
      | none => rfl
      | some l => rfl
    · show loadIds J v = _
      rw [loadIds_of_ne_null hv]
      cases v with
      | null => exact absurd rfl hv
      | _ =>
        obtain ⟨l, hl, h⟩ := bind_eq_ok.1 h
        cases h
        rw [hl]
        rfl

/-- What loading a member for `f` can change. -/
def Changes (f : Field) (v : Json) (node node' : ArgNode) : Prop :=
  match f with
  | .valueType => ∃ x, node' = { node with valueType := x }
  | .value => ∃ ints text texts, node' =
      { node with valueInt := ints, valueChar := text, valueCharArray := texts }
  | .operatorValue => ∃ x, node' = { node with operatorValue := x }
  | .operatorSibling => ∃ x, node' = { node with operatorSibling := x }
  | .operatorChild => ∃ x, node' = { node with operatorChild := x }
  | .mutex => ∃ x, node' = { node with mutex := x }
  | .mustHave => ∃ x, node' = { node with mustHave := x }
  | .weight => ∃ x, node' = { node with weight := x }
  | .dependencyId => ∃ x, node' = { node with dependencyId := x }
  | .mustChild => (v = .null ∧ ∃ x, node' = { node with mustHave := x }) ∨
      ∃ x, node' = { node with mustChild := x }
  | .childId => ∃ x, node' = { node with childId := x }

theorem loadField_changes (h : loadField J f v node = .ok node') : Changes f v node node' := by
  cases f with
  | value => exact (loadValue_spec h).2
  | operatorValue | operatorSibling | operatorChild =>
    cases h
    exact ⟨_, rfl⟩
  | valueType | mustHave | weight =>
    cases v with
    | null => cases h; exact ⟨_, rfl⟩
    | _ => cases h; exact ⟨_, rfl⟩
  | mustChild =>
    cases v with
    | null => cases h; exact .inl ⟨rfl, _, rfl⟩
    | _ => cases h; exact .inr ⟨_, rfl⟩
  | dependencyId | childId =>
    obtain ⟨l, -, h⟩ := bind_eq_ok.1 h
    cases h
    exact ⟨_, rfl⟩
  | mutex =>
    cases v with
    | null => cases h; exact ⟨_, rfl⟩
    | _ =>
      obtain ⟨l, -, h⟩ := bind_eq_ok.1 h
      cases h
      exact ⟨_, rfl⟩

theorem Changes.arg (h : Changes f v node node') : node'.arg = node.arg := by
  cases f with
  | value =>
    obtain ⟨_, _, _, rfl⟩ := h
    rfl
  | mustChild =>
    rcases h with ⟨-, _, rfl⟩ | ⟨_, rfl⟩
    · rfl
    · rfl
  | _ =>
    obtain ⟨_, rfl⟩ := h
    rfl

/-- Loading a member keeps the other fields. -/
theorem Changes.keeps (h : Changes g w node node') (hne : g ≠ f)
    (hval : f = .value → g ≠ .valueType)
    (hmc : f = .mustHave → g = .mustChild → w ≠ .null) (hf : FieldIs J f v node) :
    FieldIs J f v node' := by
  cases g with
  | valueType =>
    obtain ⟨_, rfl⟩ := h
    cases f with
    | valueType => exact absurd rfl hne
    | value => exact absurd rfl (hval rfl)
    | _ => exact hf
  | value =>
    obtain ⟨_, _, _, rfl⟩ := h
    cases f with
    | value => exact absurd rfl hne
    | _ => exact hf
  | mustChild =>
    rcases h with ⟨hw, _, rfl⟩ | ⟨_, rfl⟩
    · cases f with
      | mustChild => exact absurd rfl hne
      | mustHave => exact absurd hw (hmc rfl rfl)
      | _ => exact hf
    · cases f with
      | mustChild => exact absurd rfl hne
      | _ => exact hf
  | _ =>
    obtain ⟨_, rfl⟩ := h
    cases f with
    | _ => first | exact hf | exact absurd rfl hne

def IsList (v : Json) : Prop := v = .null ∨ ∃ l, v = .arr l

theorem loadIds_total (hv : IsList v) : ∃ l, loadIds J v = .ok l := by
  rcases hv with rfl | ⟨l, rfl⟩
  · exact ⟨[], rfl⟩
  · exact ⟨l.map J.getInt, rfl⟩

theorem loadField_total
    (hids : f = .mutex ∨ f = .dependencyId ∨ f = .childId → IsList v)
    (hvalue : f = .value → node.valueType = 1 ∨ node.valueType = 2 ∨ node.valueType = 4 →
      IsList v) : ∃ node', loadField J f v node = .ok node' := by
  cases f with
  | operatorValue | operatorSibling | operatorChild => exact ⟨_, rfl⟩
  | valueType | mustHave | weight | mustChild =>
    cases v with
    | null => exact ⟨_, rfl⟩
    | _ => exact ⟨_, rfl⟩
  | mutex =>
    rcases hids (.inl rfl) with rfl | ⟨l, rfl⟩
    · exact ⟨_, rfl⟩
    · exact ⟨_, rfl⟩
  | dependencyId =>
    obtain ⟨l, hl⟩ := loadIds_total (J := J) (hids (.inr (.inl rfl)))
    exact ⟨_, bind_eq_ok.2 ⟨l, hl, rfl⟩⟩
  | childId =>
    obtain ⟨l, hl⟩ := loadIds_total (J := J) (hids (.inr (.inr rfl)))
    exact ⟨_, bind_eq_ok.2 ⟨l, hl, rfl⟩⟩
  | value =>
    by_cases hnull : v = .null
    · subst hnull
      exact ⟨_, rfl⟩
    · have hlist : node.valueType = 1 ∨ node.valueType = 2 ∨ node.valueType = 4 →
          ∃ l, v.elements = .ok l := by
        intro hty
        obtain ⟨l, rfl⟩ := (hvalue rfl hty).resolve_left hnull
        exact ⟨l, rfl⟩
      show ∃ node', loadValue J v node = .ok node'
      rw [loadValue_of_ne_null hnull]
      split
      · obtain ⟨l, hl⟩ := hlist (by omega)
        exact ⟨_, bind_eq_ok.2 ⟨l, hl, rfl⟩⟩
      · split
        · exact ⟨_, rfl⟩
        · split
          · obtain ⟨l, hl⟩ := hlist (by omega)
            exact ⟨_, bind_eq_ok.2 ⟨l, hl, rfl⟩⟩
          · exact ⟨_, rfl⟩

end

/-! ## Keys -/

theorem Field.ofKey_key (f : Field) : Field.ofKey f.key = some f := by
  cases f <;> rfl

theorem Field.key_of_ofKey {key : String} {f : Field} (h : Field.ofKey key = some f) :
    f.key = key := by
  unfold Field.ofKey at h
  simpa using List.find?_some h

theorem Field.key_inj {f g : Field} (h : f.key = g.key) : f = g := by
  have hf := Field.ofKey_key f
  rw [h, Field.ofKey_key] at hf
  exact (Option.some.inj hf).symm

/-! ## One object -/

section

variable {J : JsonC} {key : Option String} {members : List (String × Json)}
  {arr : List ArgNode} {k : Int}

/-- An object that `ct_builder` can load: its keys are unique, the lists of ids are lists,
and the type of a value stands before the value. -/
structure NodeObject (J : JsonC) (members : List (String × Json)) : Prop where
  keys : (members.map Prod.fst).Nodup
  id : ∃ v, ("id", v) ∈ members
  ids : ∀ (f : Field) v, f = .mutex ∨ f = .dependencyId ∨ f = .childId →
    (f.key, v) ∈ members → IsList v
  value : ∀ v, (Field.value.key, v) ∈ members → ∃ before after w, members = before ++ after ∧
    (Field.valueType.key, w) ∈ before ∧ (Field.value.key, v) ∈ after ∧
    (intOr J 0 w = 1 ∨ intOr J 0 w = 2 ∨ intOr J 0 w = 4 → IsList v)

def memberOf (members : List (String × Json)) (key : String) : Json :=
  ((members.find? fun m => m.1 = key).map Prod.snd).getD .null

def idOf (J : JsonC) (members : List (String × Json)) : Int := J.getInt (memberOf members "id")

/-- Members that no null `must_child` interferes with. -/
def Settled (members : List (String × Json)) (f : Field) (v : Json) : Prop :=
  (f = .mustChild → v ≠ .null) ∧ (f = .mustHave → (Field.mustChild.key, .null) ∉ members)

/-- A node that holds what its object says. -/
structure Loaded (J : JsonC) (key : Option String) (members : List (String × Json))
    (node : ArgNode) : Prop where
  arg : node.arg = key.getD J.nullText
  field : ∀ f v, (f.key, v) ∈ members → Settled members f v → FieldIs J f v node

theorem ne_of_keys_nodup {done rest : List (String × Json)} {m m' : String × Json}
    (h : ((done ++ m :: rest).map Prod.fst).Nodup) (hm : m' ∈ done ∨ m' ∈ rest) : m'.1 ≠ m.1 := by
  rw [List.map_append, List.map_cons, List.nodup_append, List.nodup_cons] at h
  obtain ⟨-, ⟨hrest, -⟩, hdisj⟩ := h
  rcases hm with hm | hm
  · exact hdisj _ (List.mem_map_of_mem hm) _ List.mem_cons_self
  · intro he
    exact hrest (he ▸ List.mem_map_of_mem hm)

theorem NodeObject.value_done (ho : NodeObject J members) {done rest : List (String × Json)}
    {v : Json} (hsplit : members = done ++ (Field.value.key, v) :: rest) :
    ∃ w, (Field.valueType.key, w) ∈ done ∧
      (intOr J 0 w = 1 ∨ intOr J 0 w = 2 ∨ intOr J 0 w = 4 → IsList v) := by
  obtain ⟨before, after, w, happ, hw, hv, hlist⟩ := ho.value v
    (by rw [hsplit]; exact List.mem_append_right _ List.mem_cons_self)
  refine ⟨w, ?_, hlist⟩
  have hkeys := ho.keys
  rw [happ] at hsplit
  rw [happ, List.map_append, List.nodup_append] at hkeys
  rcases List.append_eq_append_iff.1 hsplit with ⟨mid, rfl, -⟩ | ⟨mid, rfl, hmid⟩
  · exact List.mem_append_left _ hw
  · cases mid with
    | nil => rw [List.append_nil] at hw; exact hw
    | cons m mid =>
      cases hmid
      have hb : Field.value.key ∈ (done ++ (Field.value.key, v) :: mid).map Prod.fst :=
        List.mem_map_of_mem (f := Prod.fst) (List.mem_append_right _ List.mem_cons_self)
      exact absurd rfl (hkeys.2.2 _ hb _ (List.mem_map_of_mem (f := Prod.fst) hv))

theorem findId_none {st : List ArgNode × Int × Bool} :
    ∀ {l : List (String × Json)}, (∀ m ∈ l, m.1 ≠ "id") →
      l.foldlM (fun st m =>
        if m.1 = "id" then do
          let id := J.getInt m.2
          let node ← rd st.1 id
          let argArray ← wr st.1 id { node with arg := key.getD J.nullText }
          return (argArray, id, true)
        else return st) st = (.ok st : Except Fault _)
  | [], _ => rfl
  | m :: l, h => by
    rw [List.foldlM_cons, if_neg (h m List.mem_cons_self)]
    exact findId_none fun m' hm' => h m' (List.mem_cons_of_mem m hm')

theorem findId_spec {v : Json} {node : ArgNode} (hkeys : (members.map Prod.fst).Nodup)
    (hid : ("id", v) ∈ members) (hk : at? arr (J.getInt v) = some node) :
    findId J key members arr =
      .ok (put arr (J.getInt v) { node with arg := key.getD J.nullText }, J.getInt v, true) := by
  obtain ⟨done, rest, rfl⟩ := List.append_of_mem hid
  unfold findId
  rw [List.foldlM_append, findId_none fun m hm => ne_of_keys_nodup hkeys (.inl hm), ok_bind,
    List.foldlM_cons, if_pos rfl]
  simp only [rd_eq_ok.2 hk, ok_bind, wr_eq_ok.2 ⟨⟨node, hk⟩, rfl⟩]
  exact findId_none fun m hm => ne_of_keys_nodup hkeys (.inr hm)

theorem memberOf_eq {key : String} {v : Json} (hkeys : (members.map Prod.fst).Nodup)
    (h : (key, v) ∈ members) : memberOf members key = v := by
  obtain ⟨done, rest, rfl⟩ := List.append_of_mem h
  have hnone : done.find? (fun m => m.1 = key) = none :=
    List.find?_eq_none.2 fun m hm => by
      simpa using ne_of_keys_nodup hkeys (.inl hm)
  unfold memberOf
  rw [List.find?_append, hnone, Option.none_or, List.find?_cons_of_pos (by simp)]
  rfl

/-- What the second pass has reached after the members `done`. -/
structure LoadedAt (J : JsonC) (members : List (String × Json)) (arr : List ArgNode) (k : Int)
    (arg : String) (done : List (String × Json)) (arr' : List ArgNode) : Prop where
  length : arr'.length = arr.length
  frame : ∀ j, j ≠ k → at? arr' j = at? arr j
  node : ∃ node, at? arr' k = some node ∧ node.arg = arg ∧
    ∀ f v, (f.key, v) ∈ done → Settled members f v → FieldIs J f v node

/-- Loading a member sets its field and keeps those of the members before it. -/
theorem NodeObject.fields_step {done rest : List (String × Json)} {m : String × Json} {g : Field}
    {node node' : ArgNode} (ho : NodeObject J members) (hsplit : members = done ++ m :: rest)
    (hgk : g.key = m.1) (hload : loadField J g m.2 node = .ok node')
    (hfields : ∀ f v, (f.key, v) ∈ done → Settled members f v → FieldIs J f v node) :
    ∀ f v, (f.key, v) ∈ done ++ [m] → Settled members f v → FieldIs J f v node' := by
  have hkeys : ((done ++ m :: rest).map Prod.fst).Nodup := hsplit ▸ ho.keys
  intro f v hf hs
  rcases List.mem_append.1 hf with hf | hf
  · refine (loadField_changes hload).keeps (fun h => ?_) (fun h hgt => ?_) (fun h hgc hnull => ?_)
      (hfields f v hf hs)
    · subst h
      exact ne_of_keys_nodup hkeys (.inl hf) hgk
    · subst h hgt
      obtain ⟨done1, done2, rfl⟩ := List.append_of_mem hf
      have hearly : members = done1 ++ (Field.value.key, v) :: (done2 ++ m :: rest) := by
        rw [hsplit]
        simp
      obtain ⟨w, hw, -⟩ := ho.value_done hearly
      exact ne_of_keys_nodup hkeys (.inl (List.mem_append_left _ hw)) hgk
    · subst hgc
      apply hs.2 h
      rw [hgk, ← hnull, hsplit]
      exact List.mem_append_right _ List.mem_cons_self
  · have hfm := List.mem_singleton.1 hf
    have hfg : f = g := Field.key_inj (by rw [hgk, ← hfm])
    subst hfg
    have hv : v = m.2 := by rw [← hfm]
    rw [hv] at hs ⊢
    exact loadField_sets hload hs.1

theorem LoadedAt.step {done rest : List (String × Json)} {m : String × Json} {arg : String}
    {arr' : List ArgNode} (ho : NodeObject J members) (hsplit : members = done ++ m :: rest)
    (hI : LoadedAt J members arr k arg done arr') :
    ∃ arr'', loadMember J k arr' m = .ok arr'' ∧
      LoadedAt J members arr k arg (done ++ [m]) arr'' := by
  obtain ⟨node, hnode, harg, hfields⟩ := hI.node
  have hmem : m ∈ members := by
    rw [hsplit]
    exact List.mem_append_right _ List.mem_cons_self
  unfold loadMember
  cases hg : Field.ofKey m.1 with
  | none =>
    refine ⟨arr', rfl, hI.length, hI.frame, node, hnode, harg, fun f v hf hs => ?_⟩
    rcases List.mem_append.1 hf with hf | hf
    · exact hfields f v hf hs
    · rw [← List.mem_singleton.1 hf, Field.ofKey_key] at hg
      cases hg
  | some g =>
    have hgk : g.key = m.1 := Field.key_of_ofKey hg
    have hgm : (g.key, m.2) ∈ members := by
      rw [hgk]
      exact hmem
    -- a value finds its type already loaded
    have hvalue : g = .value → node.valueType = 1 ∨ node.valueType = 2 ∨ node.valueType = 4 →
        IsList m.2 := by
      rintro rfl hty
      obtain ⟨w, hw, hlist⟩ := ho.value_done (v := m.2) (by rw [hgk]; exact hsplit)
      have htype : node.valueType = intOr J 0 w :=
        hfields .valueType w hw ⟨nofun, nofun⟩
      rw [htype] at hty
      exact hlist hty
    obtain ⟨node', hload⟩ := loadField_total (J := J) (fun h => ho.ids g m.2 h hgm) hvalue
    have hwr : wr arr' k node' = .ok (put arr' k node') := wr_eq_ok.2 ⟨⟨node, hnode⟩, rfl⟩
    simp only [rd_eq_ok.2 hnode, ok_bind, hload, hwr]
    refine ⟨_, rfl, by rw [length_put, hI.length], fun j hj => ?_, node', ?_,
      (loadField_changes hload).arg.trans harg, ho.fields_step hsplit hgk hload hfields⟩
    · rw [at?_put _ hnode, if_neg hj]
      exact hI.frame j hj
    · rw [at?_put _ hnode, if_pos rfl]

/-- **An object is loaded into the slot of its `id`, and nowhere else.** -/
theorem buildNode_spec (key : Option String) (ho : NodeObject J members)
    (h0 : 0 ≤ idOf J members) (h1 : idOf J members < arr.length) :
    ∃ arr', buildNode J key members arr = .ok arr' ∧ arr'.length = arr.length ∧
      (∀ j, j ≠ idOf J members → at? arr' j = at? arr j) ∧
      ∃ node, at? arr' (idOf J members) = some node ∧ Loaded J key members node := by
  obtain ⟨v, hid⟩ := ho.id
  unfold idOf at h0 h1 ⊢
  rw [memberOf_eq ho.keys hid] at h0 h1 ⊢
  obtain ⟨node, hnode⟩ := at?_of_mem_range h0 h1
  have hstart : LoadedAt J members arr (J.getInt v) (key.getD J.nullText) []
      (put arr (J.getInt v) { node with arg := key.getD J.nullText }) := by
    refine ⟨length_put _ _ _, fun j hj => ?_, { node with arg := key.getD J.nullText }, ?_, rfl,
      fun f v hf => absurd hf List.not_mem_nil⟩
    · rw [at?_put _ hnode, if_neg hj]
    · rw [at?_put _ hnode, if_pos rfl]
  obtain ⟨arr', harr, hI⟩ := foldlM_total_done
    (LoadedAt J members arr (J.getInt v) (key.getD J.nullText)) [] hstart
    fun done m rest arr' hsplit hI => hI.step ho hsplit
  obtain ⟨node', hnode', harg, hfields⟩ := hI.node
  refine ⟨arr', ?_, hI.length, hI.frame, node', hnode', harg, hfields⟩
  unfold buildNode
  rw [findId_spec ho.keys hid hnode]
  exact harr

theorem buildNode_no_id (h : ∀ v, ("id", v) ∉ members) : buildNode J key members arr = .ok arr := by
  have hid : findId J key members arr = .ok (arr, 0, false) :=
    findId_none fun m hm he => h m.2 (he ▸ hm)
  unfold buildNode
  rw [hid]
  rfl

end

end ConFuzz
