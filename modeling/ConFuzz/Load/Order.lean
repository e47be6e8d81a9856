import ConFuzz.Load.Fields

/-!
# The order of the members

The second pass over an object works on one node: `loadMembers` is that pass without
the array. It returns exactly when there is a list wherever one is needed (`Typed`).
What it leaves in a field depends on the member with the key of the field and on
nothing else, with two exceptions. A null `must_child` resets `must_have`, and a
value is read by the type that the node holds at that moment (`metType`), be it from
the object or from the memory.
-/

namespace ConFuzz

open ConFuzz.CLib

/-! ## One node -/

/-- One member in the second pass, on the node alone. -/
def loadNode (J : JsonC) (node : ArgNode) (m : String × Json) : Except Fault ArgNode :=
  match Field.ofKey m.1 with
  | some f => loadField J f m.2 node
  | none => .ok node

/-- The second pass on the node alone. -/
def loadMembers (J : JsonC) (members : List (String × Json)) (node : ArgNode) :
    Except Fault ArgNode :=
  members.foldlM (loadNode J) node

def SameField (f : Field) (a b : ArgNode) : Prop :=
  match f with
  | .valueType => a.valueType = b.valueType
  | .value => a.valueInt = b.valueInt ∧ a.valueChar = b.valueChar ∧
      a.valueCharArray = b.valueCharArray
  | .operatorValue => a.operatorValue = b.operatorValue
  | .operatorSibling => a.operatorSibling = b.operatorSibling
  | .operatorChild => a.operatorChild = b.operatorChild
  | .mutex => a.mutex = b.mutex
  | .mustHave => a.mustHave = b.mustHave
  | .weight => a.weight = b.weight
  | .dependencyId => a.dependencyId = b.dependencyId
  | .mustChild => a.mustChild = b.mustChild
  | .childId => a.childId = b.childId

section

variable {J : JsonC} {f g : Field} {v w : Json} {a b c a' b' : ArgNode}
  {members : List (String × Json)}

@[simp] theorem SameField.refl (f : Field) (a : ArgNode) : SameField f a a := by
  cases f <;> simp [SameField]

theorem SameField.symm (h : SameField f a b) : SameField f b a := by
  cases f <;> simp_all [SameField]

theorem SameField.trans (h : SameField f a b) (h' : SameField f b c) : SameField f a c := by
  cases f <;> simp_all [SameField]

theorem eq_of_sameField (harg : a.arg = b.arg) (h : ∀ f, SameField f a b) : a = b := by
  obtain ⟨hi, hc, hs⟩ := h .value
  have h1 := h .valueType
  have h2 := h .operatorValue
  have h3 := h .operatorSibling
  have h4 := h .operatorChild
  have h5 := h .mutex
  have h6 := h .mustHave
  have h7 := h .weight
  have h8 := h .dependencyId
  have h9 := h .mustChild
  have h10 := h .childId
  cases a
  cases b
  simp_all [SameField]

theorem Changes.same (h : Changes g w a b) (hne : g ≠ f)
    (hmc : f = .mustHave → g = .mustChild → w ≠ .null) : SameField f a b := by
  cases g with
  | value =>
    obtain ⟨_, _, _, rfl⟩ := h
    cases f with
    | value => exact absurd rfl hne
    | _ => rfl
  | mustChild =>
    rcases h with ⟨hw, _, rfl⟩ | ⟨_, rfl⟩
    · cases f with
      | mustHave => exact absurd hw (hmc rfl rfl)
      | value => exact ⟨rfl, rfl, rfl⟩
      | _ => rfl
    · cases f with
      | mustChild => exact absurd rfl hne
      | value => exact ⟨rfl, rfl, rfl⟩
      | _ => rfl
  | _ =>
    obtain ⟨_, rfl⟩ := h
    cases f with
    | value => exact ⟨rfl, rfl, rfl⟩
    | _ => first | rfl | exact absurd rfl hne

/-- The types are read into the same field, or are both not read. -/
def SameKind (type type' : Int) : Prop :=
  (type = 1 ∨ type = 2 ↔ type' = 1 ∨ type' = 2) ∧ (type = 3 ↔ type' = 3) ∧ (type = 4 ↔ type' = 4)

theorem SameKind.refl (type : Int) : SameKind type type := ⟨.rfl, .rfl, .rfl⟩

theorem loadValue_cases (hv : v ≠ .null) (h : loadValue J v a = .ok a') :
    ((a.valueType = 1 ∨ a.valueType = 2) ∧ ∃ l, v.elements = .ok l ∧
      a' = { a with valueInt := l.map fun x => toU64 (J.getInt x) }) ∨
    (a.valueType = 3 ∧ a' = { a with valueChar := J.getString v }) ∨
    (a.valueType = 4 ∧ ∃ l, v.elements = .ok l ∧
      a' = { a with valueCharArray := l.map J.getString }) ∨
    ((a.valueType ≠ 1 ∧ a.valueType ≠ 2 ∧ a.valueType ≠ 3 ∧ a.valueType ≠ 4) ∧ a' = a) := by
  rw [loadValue_of_ne_null hv] at h
  split at h
  · rename_i h12
    obtain ⟨l, hl, h⟩ := bind_eq_ok.1 h
    cases h
    exact .inl ⟨h12, l, hl, rfl⟩
  · split at h
    · rename_i h3
      cases h
      exact .inr (.inl ⟨h3, rfl⟩)
    · split at h
      · rename_i h4
        obtain ⟨l, hl, h⟩ := bind_eq_ok.1 h
        cases h
        exact .inr (.inr (.inl ⟨h4, l, hl, rfl⟩))
      · cases h
        exact .inr (.inr (.inr ⟨by omega, rfl⟩))

/-- One value read into two nodes that hold the same: it comes out the same when the types are of
one kind, or when both nodes hold it already. -/
theorem loadValue_same_iff (hv : v ≠ .null) (ha : loadValue J v a = .ok a')
    (hb : loadValue J v b = .ok b') (h : SameField .value a b) :
    SameField .value a' b' ↔
      SameKind a.valueType b.valueType ∨ (ValueIs J v a ∧ ValueIs J v b) := by
  obtain ⟨hi, hc, hs⟩ := h
  rw [valueIs_of_ne_null hv, valueIs_of_ne_null hv]
  rcases loadValue_cases hv ha with ⟨h12, l, hl, rfl⟩ | ⟨h3, rfl⟩ | ⟨h4, l, hl, rfl⟩ | ⟨hn, rfl⟩ <;>
    rcases loadValue_cases hv hb with ⟨h12', l', hl', rfl⟩ | ⟨h3', rfl⟩ | ⟨h4', l', hl', rfl⟩ |
      ⟨hn', rfl⟩ <;>
    simp only [SameField, SameKind] <;> grind

theorem loadField_same (ha : loadField J f v a = .ok a') (hb : loadField J f v b = .ok b')
    (h : SameField f a b) (hty : f = .value → v ≠ .null → a.valueType = b.valueType) :
    SameField f a' b' := by
  cases f with
  | value =>
    by_cases hv : v = .null
    · subst hv
      cases ha
      cases hb
      exact ⟨h.1, h.2.1, rfl⟩
    · refine (loadValue_same_iff hv ha hb h).2 (.inl ?_)
      rw [hty rfl hv]
      exact .refl _
  | operatorValue | operatorSibling | operatorChild =>
    cases ha
    cases hb
    rfl
  | valueType | mustHave | weight =>
    cases v with
    | null => cases ha; cases hb; rfl
    | _ => cases ha; cases hb; rfl
  | mustChild =>
    cases v with
    | null => cases ha; cases hb; exact h
    | _ => cases ha; cases hb; rfl
  | dependencyId | childId =>
    obtain ⟨l, ha, hb⟩ := bind_eq_ok_both ha hb
    cases ha
    cases hb
    rfl
  | mutex =>
    have hm : a.mutex = b.mutex := h
    cases v with
    | null =>
      cases ha
      cases hb
      show a.mutex.map _ = b.mutex.map _
      rw [hm]
    | _ =>
      obtain ⟨l, ha, hb⟩ := bind_eq_ok_both ha hb
      cases ha
      cases hb
      rfl

/-! ## The second pass, field by field -/

theorem loadNode_of_key {m : String × Json} (h : f.key = m.1) :
    loadNode J a m = loadField J f m.2 a := by
  unfold loadNode
  rw [← h, Field.ofKey_key]

theorem loadNode_frame {m : String × Json} (h : loadNode J a m = .ok b) (hk : m.1 ≠ f.key)
    (hmc : f = .mustHave → m ≠ (Field.mustChild.key, .null)) : SameField f a b ∧ b.arg = a.arg := by
  unfold loadNode at h
  split at h
  · rename_i g hg
    have hgk := Field.key_of_ofKey hg
    have hc := loadField_changes h
    refine ⟨hc.same (fun he => hk (by rw [← hgk, he])) (fun hf hgm hw => ?_), hc.arg⟩
    refine hmc hf ?_
    rw [← hgm, hgk, ← hw]
  · cases h
    exact ⟨.refl f a, rfl⟩

theorem loadNode_arg {m : String × Json} (h : loadNode J a m = .ok b) : b.arg = a.arg := by
  unfold loadNode at h
  split at h
  · exact (loadField_changes h).arg
  · cases h
    rfl

theorem loadMembers_cons {m : String × Json} {l : List (String × Json)} :
    loadMembers J (m :: l) a = (loadNode J a m >>= loadMembers J l) := List.foldlM_cons

theorem loadMembers_append {l l' : List (String × Json)} :
    loadMembers J (l ++ l') a = (loadMembers J l a >>= loadMembers J l') := List.foldlM_append

theorem loadMembers_arg : ∀ {l : List (String × Json)} {a b : ArgNode},
    loadMembers J l a = .ok b → b.arg = a.arg
  | [], _, _, h => by
    cases h
    rfl
  | m :: l, a, b, h => by
    rw [loadMembers_cons] at h
    obtain ⟨a1, h1, h⟩ := bind_eq_ok.1 h
    exact (loadMembers_arg h).trans (loadNode_arg h1)

/-- Members with other keys keep a field. -/
theorem loadMembers_frame : ∀ {l : List (String × Json)} {a b : ArgNode},
    loadMembers J l a = .ok b → (∀ m ∈ l, m.1 ≠ f.key) →
    (f = .mustHave → (Field.mustChild.key, .null) ∉ l) → SameField f a b
  | [], _, _, h, _, _ => by
    cases h
    exact .refl f _
  | m :: l, a, b, h, hk, hmc => by
    rw [loadMembers_cons] at h
    obtain ⟨a1, h1, h⟩ := bind_eq_ok.1 h
    have hm := (loadNode_frame h1 (hk m List.mem_cons_self) fun hf he =>
      hmc hf (by rw [← he]; exact List.mem_cons_self)).1
    exact hm.trans (loadMembers_frame h (fun m' hm' => hk m' (List.mem_cons_of_mem m hm'))
      fun hf hml => hmc hf (List.mem_cons_of_mem m hml))

/-! ## What loading needs -/

def Field.IsIds (f : Field) : Prop := f = .mutex ∨ f = .dependencyId ∨ f = .childId

/-- Loading into a node of this type finds a list wherever it needs one. -/
def Typed (J : JsonC) : Int → List (String × Json) → Prop
  | _, [] => True
  | type, m :: l =>
    (∀ f : Field, f.IsIds → f.key = m.1 → IsList m.2) ∧
    (Field.value.key = m.1 → type = 1 ∨ type = 2 ∨ type = 4 → IsList m.2) ∧
    Typed J (if m.1 = Field.valueType.key then intOr J 0 m.2 else type) l

theorem isList_of_elements {l : List Json} (h : v.elements = .ok l) : IsList v := by
  cases v with
  | arr l => exact .inr ⟨l, rfl⟩
  | _ => cases h

theorem isList_of_loadField (h : loadField J f v a = .ok b) (hf : f.IsIds) : IsList v := by
  by_cases hv : v = .null
  · exact .inl hv
  · rcases hf with rfl | rfl | rfl
    · cases v with
      | null => exact absurd rfl hv
      | _ =>
        obtain ⟨l, hl, -⟩ := bind_eq_ok.1 h
        exact isList_of_elements hl
    all_goals
      obtain ⟨l, hl, -⟩ := bind_eq_ok.1 h
      rw [loadIds_of_ne_null hv] at hl
      obtain ⟨l, hl, -⟩ := bind_eq_ok.1 hl
      exact isList_of_elements hl

theorem isList_of_loadValue (h : loadValue J v a = .ok b)
    (hty : a.valueType = 1 ∨ a.valueType = 2 ∨ a.valueType = 4) : IsList v := by
  by_cases hv : v = .null
  · exact .inl hv
  · rcases loadValue_cases hv h with ⟨-, l, hl, -⟩ | ⟨h3, -⟩ | ⟨-, l, hl, -⟩ | ⟨hn, -⟩
    · exact isList_of_elements hl
    · omega
    · exact isList_of_elements hl
    · omega

theorem loadNode_returns {m : String × Json} : (∃ b, loadNode J a m = .ok b) ↔
    (∀ f : Field, f.IsIds → f.key = m.1 → IsList m.2) ∧
    (Field.value.key = m.1 → a.valueType = 1 ∨ a.valueType = 2 ∨ a.valueType = 4 →
      IsList m.2) := by
  constructor
  · rintro ⟨b, h⟩
    refine ⟨fun f hf hk => ?_, fun hk hty => ?_⟩
    · rw [loadNode_of_key hk] at h
      exact isList_of_loadField h hf
    · rw [loadNode_of_key (f := .value) hk] at h
      exact isList_of_loadValue h hty
  · rintro ⟨hids, hvalue⟩
    unfold loadNode
    split
    · rename_i g hg
      have hgk := Field.key_of_ofKey hg
      exact loadField_total (fun hg => hids g hg hgk) fun hg => hvalue (by rw [← hg]; exact hgk)
    · exact ⟨a, rfl⟩

theorem loadNode_type {m : String × Json} (h : loadNode J a m = .ok b) :
    b.valueType = if m.1 = Field.valueType.key then intOr J 0 m.2 else a.valueType := by
  split
  · rename_i hk
    rw [loadNode_of_key (f := .valueType) hk.symm] at h
    exact loadField_sets h nofun
  · rename_i hk
    exact (loadNode_frame (f := .valueType) h hk nofun).1.symm

/-- **When an object loads.** -/
theorem loadMembers_returns : ∀ {l : List (String × Json)} {a : ArgNode},
    (∃ b, loadMembers J l a = .ok b) ↔ Typed J a.valueType l
  | [], a => iff_of_true ⟨a, rfl⟩ trivial
  | m :: l, a => by
    rw [loadMembers_cons]
    constructor
    · rintro ⟨b, h⟩
      obtain ⟨a1, h1, h⟩ := bind_eq_ok.1 h
      obtain ⟨hids, hvalue⟩ := loadNode_returns.1 ⟨a1, h1⟩
      refine ⟨hids, hvalue, ?_⟩
      rw [← loadNode_type h1]
      exact loadMembers_returns.1 ⟨b, h⟩
    · rintro ⟨hids, hvalue, htail⟩
      obtain ⟨a1, h1⟩ := loadNode_returns.2 ⟨hids, hvalue⟩
      rw [← loadNode_type h1] at htail
      obtain ⟨b, h⟩ := loadMembers_returns.2 htail
      exact ⟨b, bind_eq_ok.2 ⟨a1, h1, h⟩⟩

/-! ## Two passes -/

/-- One member leaves equal fields equal. -/
theorem loadNode_agree {m : String × Json} (ha : loadNode J a m = .ok a')
    (hb : loadNode J b m = .ok b') (h : SameField f a b)
    (hty : f = .value → a.valueType = b.valueType) : SameField f a' b' := by
  by_cases hk : f.key = m.1
  · rw [loadNode_of_key hk] at ha hb
    exact loadField_same ha hb h fun hf _ => hty hf
  · by_cases hmc : f = .mustHave ∧ m = (Field.mustChild.key, .null)
    · obtain ⟨rfl, rfl⟩ := hmc
      rw [loadNode_of_key (f := .mustChild) rfl] at ha hb
      cases ha
      cases hb
      rfl
    · have hne : f = .mustHave → m ≠ (Field.mustChild.key, .null) := fun hf hm => hmc ⟨hf, hm⟩
      have hsa := (loadNode_frame ha (Ne.symm hk) hne).1
      have hsb := (loadNode_frame hb (Ne.symm hk) hne).1
      exact hsa.symm.trans (h.trans hsb)

/-- **What two nodes share, the same members leave to be shared**; for a value the types have
to be shared as well. -/
theorem loadMembers_agree : ∀ {l : List (String × Json)} {a b a' b' : ArgNode},
    loadMembers J l a = .ok a' → loadMembers J l b = .ok b' → SameField f a b →
    (f = .value → a.valueType = b.valueType) → SameField f a' b'
  | [], _, _, _, _, ha, hb, h, _ => by
    cases ha
    cases hb
    exact h
  | m :: l, a, b, a', b', ha, hb, h, hty => by
    rw [loadMembers_cons] at ha hb
    obtain ⟨a1, ha1, ha⟩ := bind_eq_ok.1 ha
    obtain ⟨b1, hb1, hb⟩ := bind_eq_ok.1 hb
    refine loadMembers_agree ha hb (loadNode_agree ha1 hb1 h hty) fun hf => ?_
    rw [loadNode_type ha1, loadNode_type hb1, hty hf]

/-! ## One field -/

/-- The type that the value of an object meets. -/
def metType (J : JsonC) : Int → List (String × Json) → Int
  | type, [] => type
  | type, m :: l =>
    if m.1 = Field.value.key then type
    else metType J (if m.1 = Field.valueType.key then intOr J 0 m.2 else type) l

theorem metType_eq {rest : List (String × Json)} : ∀ {done : List (String × Json)}
    {a a1 : ArgNode}, loadMembers J done a = .ok a1 → (∀ m ∈ done, m.1 ≠ Field.value.key) →
    metType J a.valueType (done ++ (Field.value.key, v) :: rest) = a1.valueType
  | [], _, _, h, _ => by
    cases h
    exact if_pos rfl
  | m :: done, a, a1, h, hno => by
    rw [loadMembers_cons] at h
    obtain ⟨a2, h2, h⟩ := bind_eq_ok.1 h
    rw [List.cons_append, metType, if_neg (hno m List.mem_cons_self), ← loadNode_type h2]
    exact metType_eq h fun m' hm' => hno m' (List.mem_cons_of_mem m hm')

theorem loadMembers_at (hkeys : (members.map Prod.fst).Nodup)
    (h : loadMembers J members a = .ok b) (hf : (f.key, v) ∈ members)
    (hmc : f = .mustHave → (Field.mustChild.key, .null) ∉ members) :
    ∃ a1 a2, SameField f a a1 ∧ (f = .value → a1.valueType = metType J a.valueType members) ∧
      loadField J f v a1 = .ok a2 ∧ SameField f a2 b := by
  obtain ⟨done, rest, rfl⟩ := List.append_of_mem hf
  rw [loadMembers_append] at h
  obtain ⟨a1, h1, h⟩ := bind_eq_ok.1 h
  rw [loadMembers_cons, loadNode_of_key rfl] at h
  obtain ⟨a2, h2, h3⟩ := bind_eq_ok.1 h
  have hdone : ∀ m ∈ done, m.1 ≠ f.key := fun m hm => ne_of_keys_nodup hkeys (.inl hm)
  refine ⟨a1, a2, ?_, ?_, h2, ?_⟩
  · exact loadMembers_frame h1 hdone fun hf hm => hmc hf (List.mem_append_left _ hm)
  · rintro rfl
    exact (metType_eq h1 hdone).symm
  · exact loadMembers_frame h3 (fun m hm => ne_of_keys_nodup hkeys (.inr hm))
      fun hf hm => hmc hf (List.mem_append_right _ (List.mem_cons_of_mem _ hm))

/-- **A field after the second pass** depends on the member with its key. -/
theorem loadMembers_same {l l' : List (String × Json)} (hl : (l.map Prod.fst).Nodup)
    (hl' : (l'.map Prod.fst).Nodup) (h : loadMembers J l c = .ok a)
    (h' : loadMembers J l' c = .ok b) (hmem : ∀ v, (f.key, v) ∈ l ↔ (f.key, v) ∈ l')
    (hval : f = .value → ∀ v, (Field.value.key, v) ∈ l → v = .null)
    (hmc : f = .mustHave →
      (Field.mustChild.key, .null) ∉ l ∧ (Field.mustChild.key, .null) ∉ l') :
    SameField f a b := by
  by_cases hin : ∃ v, (f.key, v) ∈ l
  · obtain ⟨v, hv⟩ := hin
    obtain ⟨a1, a2, hs1, -, hload1, hs2⟩ := loadMembers_at hl h hv fun hf => (hmc hf).1
    obtain ⟨b1, b2, hs1', -, hload2, hs2'⟩ := loadMembers_at hl' h' ((hmem v).1 hv)
      fun hf => (hmc hf).2
    refine hs2.symm.trans ((loadField_same hload1 hload2 (hs1.symm.trans hs1') ?_).trans hs2')
    rintro rfl hnull
    exact absurd (hval rfl v hv) hnull
  · have hno : ∀ m ∈ l, m.1 ≠ f.key := fun m hm he => hin ⟨m.2, by rw [← he]; exact hm⟩
    have hno' : ∀ m ∈ l', m.1 ≠ f.key := fun m hm he =>
      hin ⟨m.2, (hmem m.2).2 (by rw [← he]; exact hm)⟩
    exact (loadMembers_frame h hno fun hf => (hmc hf).1).symm.trans
      (loadMembers_frame h' hno' fun hf => (hmc hf).2)

/-- Read at `type` or at `type'`, the value leaves the same in the node. -/
def ReadAlike (J : JsonC) (v : Json) (node : ArgNode) (type type' : Int) : Prop :=
  SameKind type type' ∨
    (ValueIs J v { node with valueType := type } ∧ ValueIs J v { node with valueType := type' })

/-- The value after the second pass over two orders. -/
theorem loadMembers_value {l l' : List (String × Json)} (hl : (l.map Prod.fst).Nodup)
    (hl' : (l'.map Prod.fst).Nodup) (h : loadMembers J l c = .ok a)
    (h' : loadMembers J l' c = .ok b) (hv : (Field.value.key, v) ∈ l)
    (hv' : (Field.value.key, v) ∈ l') (hnull : v ≠ .null) : SameField .value a b ↔
      ReadAlike J v c (metType J c.valueType l) (metType J c.valueType l') := by
  obtain ⟨a1, a2, hs1, hty1, hload1, hs2⟩ := loadMembers_at hl h hv nofun
  obtain ⟨b1, b2, hs1', hty1', hload2, hs2'⟩ := loadMembers_at hl' h' hv' nofun
  have hsame : SameField .value a b ↔ SameField .value a2 b2 :=
    ⟨fun h => hs2.trans (h.trans hs2'.symm), fun h => hs2.symm.trans (h.trans hs2')⟩
  have hholds : ∀ {c1 : ArgNode}, SameField .value c c1 →
      (ValueIs J v { c with valueType := c1.valueType } ↔ ValueIs J v c1) := by
    rintro c1 ⟨hi, hc, hs⟩
    rw [valueIs_of_ne_null hnull, valueIs_of_ne_null hnull, hi, hc, hs]
  rw [hsame, loadValue_same_iff hnull hload1 hload2 (hs1.symm.trans hs1'), ReadAlike,
    ← hty1 rfl, ← hty1' rfl, hholds hs1, hholds hs1']

/-! ## The flag that is reset -/

def Precedes (k k' : String) (l : List (String × Json)) : Prop :=
  ∃ done rest v, l = done ++ (k', v) :: rest ∧ ∃ w, (k, w) ∈ done

/-- What the last `must_have` and the last null `must_child` leave. -/
theorem loadMembers_mustHave {done rest : List (String × Json)}
    (hkeys : ((done ++ (Field.mustHave.key, w) :: rest).map Prod.fst).Nodup)
    (h : loadMembers J (done ++ (Field.mustHave.key, w) :: rest) a = .ok b)
    (hrest : (Field.mustChild.key, .null) ∉ rest) : b.mustHave = J.getBoolean w := by
  rw [loadMembers_append] at h
  obtain ⟨a1, -, h⟩ := bind_eq_ok.1 h
  rw [loadMembers_cons, loadNode_of_key (f := .mustHave) rfl] at h
  obtain ⟨a2, h2, h3⟩ := bind_eq_ok.1 h
  have hset : a2.mustHave = J.getBoolean w := loadField_sets h2 nofun
  have hs : a2.mustHave = b.mustHave := loadMembers_frame (f := .mustHave) h3
    (fun m hm => ne_of_keys_nodup hkeys (.inr hm)) fun _ => hrest
  rw [← hs, hset]

theorem mustHave_of_mem (hkeys : (members.map Prod.fst).Nodup)
    (h : loadMembers J members a = .ok b) (hnull : (Field.mustChild.key, .null) ∉ members)
    {u : Json} (hu : (Field.mustHave.key, u) ∈ members) : b.mustHave = J.getBoolean u := by
  obtain ⟨done, rest, rfl⟩ := List.append_of_mem hu
  refine loadMembers_mustHave hkeys h fun hm => hnull ?_
  exact List.mem_append_right _ (List.mem_cons_of_mem _ hm)

theorem loadMembers_reset {done rest : List (String × Json)}
    (hkeys : ((done ++ (Field.mustChild.key, .null) :: rest).map Prod.fst).Nodup)
    (h : loadMembers J (done ++ (Field.mustChild.key, .null) :: rest) a = .ok b)
    (hrest : ∀ m ∈ rest, m.1 ≠ Field.mustHave.key) : b.mustHave = false := by
  rw [loadMembers_append] at h
  obtain ⟨a1, -, h⟩ := bind_eq_ok.1 h
  rw [loadMembers_cons, loadNode_of_key (f := .mustChild) rfl] at h
  obtain ⟨a2, h2, h3⟩ := bind_eq_ok.1 h
  cases h2
  exact (loadMembers_frame (f := .mustHave) h3 hrest fun _ hm =>
    ne_of_keys_nodup hkeys (.inr hm) rfl).symm

theorem mustHave_of_null (hkeys : (members.map Prod.fst).Nodup)
    (h : loadMembers J members a = .ok b) (hnull : (Field.mustChild.key, .null) ∈ members) :
    b.mustHave = true ↔ Precedes Field.mustChild.key Field.mustHave.key members ∧
      ∃ w, (Field.mustHave.key, w) ∈ members ∧ J.getBoolean w = true := by
  by_cases hpre : Precedes Field.mustChild.key Field.mustHave.key members
  · obtain ⟨done, rest, w, rfl, u, hu⟩ := id hpre
    have hval := loadMembers_mustHave hkeys h fun hm => by
      have hnd := hkeys
      rw [List.map_append, List.nodup_append] at hnd
      exact hnd.2.2 _ (List.mem_map_of_mem hu) _
        (List.mem_map_of_mem (List.mem_cons_of_mem _ hm)) rfl
    have hw : (Field.mustHave.key, w) ∈ done ++ (Field.mustHave.key, w) :: rest :=
      List.mem_append_right _ List.mem_cons_self
    rw [hval]
    refine ⟨fun htrue => ⟨hpre, w, hw, htrue⟩, ?_⟩
    rintro ⟨-, w', hw', htrue⟩
    rwa [← memberOf_eq hkeys hw, memberOf_eq hkeys hw']
  · obtain ⟨done, rest, rfl⟩ := List.append_of_mem hnull
    have hrest : ∀ m ∈ rest, m.1 ≠ Field.mustHave.key := by
      intro m hm he
      obtain ⟨r1, r2, rfl⟩ := List.append_of_mem hm
      refine hpre ⟨done ++ (Field.mustChild.key, .null) :: r1, r2, m.2, ?_, .null,
        List.mem_append_right _ List.mem_cons_self⟩
      rw [← he]
      simp
    rw [loadMembers_reset hkeys h hrest]
    exact iff_of_false nofun fun h => hpre h.1

/-! ## The object in its slot -/

theorem loadMember_eq {k : Int} {arr : List ArgNode} {node : ArgNode} {m : String × Json}
    (hk : at? arr k = some node) :
    loadMember J k arr m = (loadNode J node m >>= fun node' => .ok (put arr k node')) := by
  unfold loadMember loadNode
  cases Field.ofKey m.1 with
  | some g =>
    simp only [rd_eq_ok.2 hk, ok_bind]
    exact congrArg _ (funext fun node' => wr_eq_ok.2 ⟨⟨node, hk⟩, rfl⟩)
  | none =>
    show Except.ok arr = Except.ok (put arr k node)
    rw [put_self hk]

theorem foldlM_loadMember {k : Int} : ∀ {l : List (String × Json)} {arr : List ArgNode}
    {node : ArgNode}, at? arr k = some node → l.foldlM (loadMember J k) arr =
      (loadMembers J l node >>= fun node' => .ok (put arr k node'))
  | [], arr, node, hk => by
    show Except.ok arr = Except.ok (put arr k node)
    rw [put_self hk]
  | m :: l, arr, node, hk => by
    rw [List.foldlM_cons, loadMembers_cons, loadMember_eq hk]
    cases h : loadNode J node m with
    | error e => rfl
    | ok node1 =>
      have hk1 : at? (put arr k node1) k = some node1 := by rw [at?_put _ hk, if_pos rfl]
      rw [ok_bind, ok_bind, ok_bind, foldlM_loadMember hk1]
      simp only [put_put]

/-- **An object is loaded into one slot**, by the second pass on the node. -/
theorem buildNode_eq {key : Option String} {arr : List ArgNode} {node : ArgNode}
    (hkeys : (members.map Prod.fst).Nodup) (hid : ("id", v) ∈ members)
    (hk : at? arr (J.getInt v) = some node) :
    buildNode J key members arr =
      (loadMembers J members { node with arg := key.getD J.nullText } >>= fun node' =>
        .ok (put arr (J.getInt v) node')) := by
  have hk1 : at? (put arr (J.getInt v) { node with arg := key.getD J.nullText }) (J.getInt v) =
      some { node with arg := key.getD J.nullText } := by rw [at?_put _ hk, if_pos rfl]
  have hfold := foldlM_loadMember (J := J) (l := members) hk1
  simp only [put_put] at hfold
  unfold buildNode
  rw [findId_spec hkeys hid hk]
  exact hfold

end

end ConFuzz
