import ConFuzz.Load.Document
import ConFuzz.Load.Order
import Mathlib.Data.List.Perm.Basic

/-!
# Every key sets its own field

What a loader for JSON objects should do: the members may come in any order
(`SameRecord`), and the value of one key decides about the field of that key
(`OwnField`). `ct_builder` does so for two orders exactly when the value is read
alike in both and a null `must_child` stands on the same side of a true `must_have`
(`OrdersAlike`); and for a new value exactly when it can be loaded, and a `must_child`
that becomes null, or no longer is, finds a `must_have` that is false or is set
afterwards (`KeyApart`).
-/

namespace ConFuzz

open ConFuzz.CLib

/-- The nodes differ at most in what the key `k` is about: its field, and for the type of a
value also the value. -/
def SameBut (k : String) (a b : ArgNode) : Prop :=
  a.arg = b.arg ∧
    ∀ f : Field, f.key ≠ k → (k = Field.valueType.key → f ≠ .value) → SameField f a b

/-- `ct_builder` writes the same record for the two orders. -/
def SameRecord (J : JsonC) (key : Option String) (arr : List ArgNode)
    (members l : List (String × Json)) : Prop :=
  ∃ a, buildNode J key members arr = .ok (put arr (idOf J members) a) ∧
    buildNode J key l arr = .ok (put arr (idOf J members) a)

/-- `ct_builder` writes a record with `v` for the key `k` and one with `w`, and the two differ in
the field of `k` only. -/
def OwnField (J : JsonC) (key : Option String) (arr : List ArgNode)
    (done rest : List (String × Json)) (k : String) (v w : Json) : Prop :=
  ∃ a b, SameBut k a b ∧
    buildNode J key (done ++ (k, v) :: rest) arr =
      .ok (put arr (idOf J (done ++ (k, v) :: rest)) a) ∧
    buildNode J key (done ++ (k, w) :: rest) arr =
      .ok (put arr (idOf J (done ++ (k, v) :: rest)) b)

/-- Both orders find the lists they need, read the value alike, and have a null `must_child` on the
same side of a `must_have` that is true. -/
structure OrdersAlike (J : JsonC) (node : ArgNode) (members l : List (String × Json)) : Prop where
  typed : Typed J node.valueType members ∧ Typed J node.valueType l
  value : ∀ v, (Field.value.key, v) ∈ members → v ≠ .null →
    ReadAlike J v node (metType J node.valueType members) (metType J node.valueType l)
  mustHave : (Field.mustChild.key, .null) ∈ members →
    ∀ w, (Field.mustHave.key, w) ∈ members → J.getBoolean w = true →
      (Precedes Field.mustChild.key Field.mustHave.key members ↔
        Precedes Field.mustChild.key Field.mustHave.key l)

/-- A null `must_child` between `done` and `rest` has nothing to reset: `must_have` is set after it,
or it is false, from before it or from the memory. -/
def NothingToReset (J : JsonC) (node : ArgNode) (done rest : List (String × Json)) : Prop :=
  (∃ w, (Field.mustHave.key, w) ∈ rest) ∨
    (∃ w, (Field.mustHave.key, w) ∈ done ∧ J.getBoolean w = false) ∨
      ((∀ w, (Field.mustHave.key, w) ∉ done) ∧ node.mustHave = false)

/-- Both values can be loaded, and `must_child` becomes null, or no longer is, where there is
nothing to reset. -/
structure KeyApart (J : JsonC) (node : ArgNode) (done rest : List (String × Json)) (k : String)
    (v w : Json) : Prop where
  typed : Typed J node.valueType (done ++ (k, v) :: rest) ∧
    Typed J node.valueType (done ++ (k, w) :: rest)
  mustChild : k = Field.mustChild.key → (v = .null ↔ w = .null) ∨ NothingToReset J node done rest

section

variable {J : JsonC} {f : Field} {members l done rest : List (String × Json)} {k : String}
  {v w : Json} {a b c : ArgNode}

theorem keys_nodup_perm (hp : l.Perm members) (h : (members.map Prod.fst).Nodup) :
    (l.map Prod.fst).Nodup := (hp.map Prod.fst).nodup_iff.2 h

theorem keys_nodup_replace (h : ((done ++ (k, v) :: rest).map Prod.fst).Nodup) :
    ((done ++ (k, w) :: rest).map Prod.fst).Nodup := by
  simpa using h

theorem mem_replace {m : String × Json} (hm : m ∈ done ++ (k, v) :: rest) (hk : m.1 ≠ k) :
    m ∈ done ++ (k, w) :: rest := by
  rcases List.mem_append.1 hm with h | h
  · exact List.mem_append_left _ h
  · rcases List.mem_cons.1 h with rfl | h
    · exact absurd rfl hk
    · exact List.mem_append_right _ (List.mem_cons_of_mem _ h)

/-- `ct_builder` on an array is the second pass on the node of its slot. -/
theorem buildNode_put {key : Option String} {arr : List ArgNode} {node : ArgNode} {id : Json}
    (hkeys : (members.map Prod.fst).Nodup) (hid : ("id", id) ∈ members)
    (hnode : at? arr (J.getInt id) = some node) :
    buildNode J key members arr = .ok (put arr (J.getInt id) a) ↔
      loadMembers J members { node with arg := key.getD J.nullText } = .ok a := by
  rw [buildNode_eq hkeys hid hnode]
  cases h : loadMembers J members { node with arg := key.getD J.nullText } with
  | error e => exact iff_of_false nofun nofun
  | ok b =>
    rw [ok_bind]
    refine ⟨fun h => ?_, fun h => by rw [Except.ok.inj h]⟩
    have hat : at? (put arr (J.getInt id) b) (J.getInt id) =
        at? (put arr (J.getInt id) a) (J.getInt id) := by rw [Except.ok.inj h]
    rw [at?_put _ hnode, at?_put _ hnode, if_pos rfl, if_pos rfl] at hat
    rw [Option.some.inj hat]

/-! ## Two orders -/

theorem ReadAlike.of_arg {node : ArgNode} {arg : String} {type type' : Int} (hv : v ≠ .null) :
    ReadAlike J v { node with arg := arg } type type' ↔ ReadAlike J v node type type' := by
  unfold ReadAlike
  simp only [valueIs_of_ne_null hv]

theorem ordersAlike_arg {node : ArgNode} (arg : String) :
    OrdersAlike J { node with arg := arg } members l ↔ OrdersAlike J node members l :=
  ⟨fun h => ⟨h.typed, fun v hv hnull => (ReadAlike.of_arg hnull).1 (h.value v hv hnull),
      h.mustHave⟩,
    fun h => ⟨h.typed, fun v hv hnull => (ReadAlike.of_arg hnull).2 (h.value v hv hnull),
      h.mustHave⟩⟩

theorem mustHave_same (hkeys : (members.map Prod.fst).Nodup) (hp : l.Perm members)
    (ha : loadMembers J members c = .ok a) (hb : loadMembers J l c = .ok b)
    (hnull : (Field.mustChild.key, .null) ∈ members) : a.mustHave = b.mustHave ↔
      ∀ w, (Field.mustHave.key, w) ∈ members → J.getBoolean w = true →
        (Precedes Field.mustChild.key Field.mustHave.key members ↔
          Precedes Field.mustChild.key Field.mustHave.key l) := by
  have hiff := mustHave_of_null hkeys ha hnull
  have hiff' := mustHave_of_null (keys_nodup_perm hp hkeys) hb (hp.mem_iff.2 hnull)
  simp only [hp.mem_iff] at hiff'
  rw [Bool.eq_iff_iff, hiff, hiff']
  constructor
  · intro h w hw htrue
    exact ⟨fun hpre => (h.1 ⟨hpre, w, hw, htrue⟩).1, fun hpre => (h.2 ⟨hpre, w, hw, htrue⟩).1⟩
  · intro h
    constructor
    · rintro ⟨hpre, w, hw, htrue⟩
      exact ⟨(h w hw htrue).1 hpre, w, hw, htrue⟩
    · rintro ⟨hpre, w, hw, htrue⟩
      exact ⟨(h w hw htrue).2 hpre, w, hw, htrue⟩

/-- Two orders load the same node. -/
theorem loadMembers_perm (hkeys : (members.map Prod.fst).Nodup) (hp : l.Perm members) :
    (∃ a, loadMembers J members c = .ok a ∧ loadMembers J l c = .ok a) ↔
      OrdersAlike J c members l := by
  have hl := keys_nodup_perm hp hkeys
  constructor
  · rintro ⟨a, ha, hb⟩
    refine ⟨⟨loadMembers_returns.1 ⟨a, ha⟩, loadMembers_returns.1 ⟨a, hb⟩⟩, fun v hv hnull => ?_,
      fun hnull => (mustHave_same hkeys hp ha hb hnull).1 rfl⟩
    exact (loadMembers_value hkeys hl ha hb hv (hp.mem_iff.2 hv) hnull).1 (.refl _ a)
  · intro h
    obtain ⟨a, ha⟩ := loadMembers_returns.2 h.typed.1
    obtain ⟨b, hb⟩ := loadMembers_returns.2 h.typed.2
    have hfields : ∀ f, SameField f a b := by
      intro f
      by_cases hval : f = .value ∧ ∃ v, (Field.value.key, v) ∈ members ∧ v ≠ .null
      · obtain ⟨rfl, v, hv, hnull⟩ := hval
        exact (loadMembers_value hkeys hl ha hb hv (hp.mem_iff.2 hv) hnull).2 (h.value v hv hnull)
      · by_cases hmc : f = .mustHave ∧ (Field.mustChild.key, .null) ∈ members
        · obtain ⟨rfl, hnull⟩ := hmc
          exact (mustHave_same hkeys hp ha hb hnull).2 (h.mustHave hnull)
        · refine loadMembers_same hkeys hl ha hb (fun v => hp.mem_iff.symm) (fun hf v hv => ?_)
            fun hf => ⟨fun hn => hmc ⟨hf, hn⟩, fun hn => hmc ⟨hf, hp.mem_iff.1 hn⟩⟩
          by_contra hnull
          exact hval ⟨hf, v, hv, hnull⟩
    have hab : a = b := eq_of_sameField (by rw [loadMembers_arg ha, loadMembers_arg hb]) hfields
    exact ⟨a, ha, by rw [hab, hb]⟩

/-! ## A new value for one key -/

theorem keyApart_arg {node : ArgNode} (arg : String) :
    KeyApart J { node with arg := arg } done rest k v w ↔ KeyApart J node done rest k v w :=
  ⟨fun h => ⟨h.typed, h.mustChild⟩, fun h => ⟨h.typed, h.mustChild⟩⟩

theorem mustHave_reset (hkeys : ((done ++ (Field.mustChild.key, .null) :: rest).map Prod.fst).Nodup)
    (hw : w ≠ .null) (ha : loadMembers J (done ++ (Field.mustChild.key, .null) :: rest) c = .ok a)
    (hb : loadMembers J (done ++ (Field.mustChild.key, w) :: rest) c = .ok b) :
    a.mustHave = b.mustHave ↔ NothingToReset J c done rest := by
  have hkeys' := keys_nodup_replace (w := w) hkeys
  have hrest : (Field.mustChild.key, .null) ∉ rest := fun hm =>
    ne_of_keys_nodup hkeys (.inr hm) rfl
  by_cases hafter : ∃ u, (Field.mustHave.key, u) ∈ rest
  · refine iff_of_true ?_ (.inl hafter)
    obtain ⟨u, hu⟩ := hafter
    obtain ⟨r1, r2, rfl⟩ := List.append_of_mem hu
    have hr2 : (Field.mustChild.key, .null) ∉ r2 := fun hm =>
      hrest (List.mem_append_right _ (List.mem_cons_of_mem _ hm))
    rw [← List.cons_append, ← List.append_assoc] at ha hb hkeys hkeys'
    rw [loadMembers_mustHave hkeys ha hr2, loadMembers_mustHave hkeys' hb hr2]
  · have hno : ∀ m ∈ rest, m.1 ≠ Field.mustHave.key := fun m hm he =>
      hafter ⟨m.2, by rw [← he]; exact hm⟩
    rw [loadMembers_reset hkeys ha hno]
    have hnull : (Field.mustChild.key, .null) ∉ done ++ (Field.mustChild.key, w) :: rest := by
      intro hm
      have hmem := memberOf_eq hkeys' hm
      rw [memberOf_eq hkeys' (List.mem_append_right _ List.mem_cons_self)] at hmem
      exact hw hmem
    by_cases hbefore : ∃ u, (Field.mustHave.key, u) ∈ done
    · have hval : ∀ u, (Field.mustHave.key, u) ∈ done → b.mustHave = J.getBoolean u :=
        fun u hu => mustHave_of_mem hkeys' hb hnull (List.mem_append_left _ hu)
      obtain ⟨u, hu⟩ := hbefore
      refine ⟨fun hf => .inr (.inl ⟨u, hu, ?_⟩), ?_⟩
      · rw [← hval u hu, hf]
      · rintro (hu' | ⟨u', hu', hf⟩ | ⟨hnone, -⟩)
        · exact absurd hu' hafter
        · rw [hval u' hu', hf]
        · exact absurd hu (hnone u)
    · have hs : c.mustHave = b.mustHave := by
        refine loadMembers_frame (f := .mustHave) hb (fun m hm he => ?_) fun _ => hnull
        rcases List.mem_append.1 hm with hm | hm
        · exact hbefore ⟨m.2, by rw [← he]; exact hm⟩
        · rcases List.mem_cons.1 hm with rfl | hm
          · simp [Field.key] at he
          · exact hno m hm he
      rw [← hs]
      refine ⟨fun hf => .inr (.inr ⟨fun u hu => hbefore ⟨u, hu⟩, hf.symm⟩), ?_⟩
      rintro (⟨u, hu⟩ | ⟨u, hu, -⟩ | ⟨-, hf⟩)
      · exact absurd ⟨u, hu⟩ hafter
      · exact absurd ⟨u, hu⟩ hbefore
      · exact hf.symm

theorem sameBut_of_loads (ha : loadMembers J (done ++ (k, v) :: rest) c = .ok a)
    (hb : loadMembers J (done ++ (k, w) :: rest) c = .ok b)
    (hmc : k = Field.mustChild.key → v = .null ∨ w = .null → a.mustHave = b.mustHave) :
    SameBut k a b := by
  refine ⟨by rw [loadMembers_arg ha, loadMembers_arg hb], fun f hf hval => ?_⟩
  by_cases hm : f = .mustHave ∧ k = Field.mustChild.key ∧ (v = .null ∨ w = .null)
  · obtain ⟨rfl, hk, hnull⟩ := hm
    exact hmc hk hnull
  · rw [loadMembers_append] at ha hb
    obtain ⟨n, hn, ha⟩ := bind_eq_ok.1 ha
    obtain ⟨n', hn', hb⟩ := bind_eq_ok.1 hb
    rw [hn] at hn'
    cases hn'
    rw [loadMembers_cons] at ha hb
    obtain ⟨a1, ha1, ha⟩ := bind_eq_ok.1 ha
    obtain ⟨b1, hb1, hb⟩ := bind_eq_ok.1 hb
    have hframe : ∀ {g : Field} {u : Json} {n1 : ArgNode}, g.key ≠ k →
        (g = .mustHave → (k, u) ≠ (Field.mustChild.key, .null)) →
        loadNode J n (k, u) = .ok n1 → SameField g n n1 :=
      fun hg hmc hn1 => (loadNode_frame hn1 (Ne.symm hg) hmc).1
    refine loadMembers_agree ha hb (SameField.trans (SameField.symm (hframe hf ?_ ha1))
      (hframe hf ?_ hb1)) fun hfv => ?_
    · exact fun hfm he => hm ⟨hfm, (Prod.mk.inj he).1, .inl (Prod.mk.inj he).2⟩
    · exact fun hfm he => hm ⟨hfm, (Prod.mk.inj he).1, .inr (Prod.mk.inj he).2⟩
    · have hkt : Field.valueType.key ≠ k := fun hk => hval hk.symm hfv
      have h1 : n.valueType = a1.valueType := hframe (g := .valueType) hkt nofun ha1
      have h2 : n.valueType = b1.valueType := hframe (g := .valueType) hkt nofun hb1
      rw [← h1, h2]

/-- A new value for one key changes the field of the key only. -/
theorem loadMembers_own (hkeys : ((done ++ (k, v) :: rest).map Prod.fst).Nodup) :
    (∃ a b, SameBut k a b ∧ loadMembers J (done ++ (k, v) :: rest) c = .ok a ∧
      loadMembers J (done ++ (k, w) :: rest) c = .ok b) ↔ KeyApart J c done rest k v w := by
  have hreset : ∀ {a b : ArgNode}, k = Field.mustChild.key → ¬ (v = .null ↔ w = .null) →
      loadMembers J (done ++ (k, v) :: rest) c = .ok a →
      loadMembers J (done ++ (k, w) :: rest) c = .ok b →
      (a.mustHave = b.mustHave ↔ NothingToReset J c done rest) := by
    rintro a b rfl hne ha hb
    by_cases hv : v = .null
    · subst hv
      exact mustHave_reset hkeys (fun hw => hne (iff_of_true rfl hw)) ha hb
    · have hw : w = .null := by
        by_contra hw
        exact hne (iff_of_false hv hw)
      subst hw
      rw [eq_comm]
      exact mustHave_reset (keys_nodup_replace hkeys) hv hb ha
  constructor
  · rintro ⟨a, b, hsame, ha, hb⟩
    refine ⟨⟨loadMembers_returns.1 ⟨a, ha⟩, loadMembers_returns.1 ⟨b, hb⟩⟩, fun hk => ?_⟩
    by_cases hvw : v = .null ↔ w = .null
    · exact .inl hvw
    · refine .inr ((hreset hk hvw ha hb).1 (hsame.2 .mustHave ?_ nofun))
      rw [hk]
      decide
  · intro h
    obtain ⟨a, ha⟩ := loadMembers_returns.2 h.typed.1
    obtain ⟨b, hb⟩ := loadMembers_returns.2 h.typed.2
    refine ⟨a, b, sameBut_of_loads ha hb fun hk hnull => ?_, ha, hb⟩
    by_cases hvw : v = .null ↔ w = .null
    · have hv : v = .null := hnull.elim id hvw.2
      have hw : w = .null := hvw.1 hv
      rw [hv] at ha
      rw [hw, ha] at hb
      rw [Except.ok.inj hb]
    · exact (hreset hk hvw ha hb).2 ((h.mustChild hk).resolve_left hvw)

end

/-- **When loading an object goes by its keys.** For every object with unique keys whose `id` has a
slot, every order of its members loads the same record exactly when the two orders are
alike; and every new value for a key changes the field of that key only exactly when
the key is apart. -/
theorem buildNode_byKey (J : JsonC) (key : Option String) (members : List (String × Json))
    (hkeys : (members.map Prod.fst).Nodup) (id : Json) (hid : ("id", id) ∈ members)
    (arr : List ArgNode) (node : ArgNode) (hnode : at? arr (J.getInt id) = some node) :
    (∀ l, l.Perm members → (SameRecord J key arr members l ↔ OrdersAlike J node members l)) ∧
    (∀ done rest k v w, members = done ++ (k, v) :: rest → k ≠ "id" →
      (OwnField J key arr done rest k v w ↔ KeyApart J node done rest k v w)) := by
  have hslot : idOf J members = J.getInt id := by rw [idOf, memberOf_eq hkeys hid]
  constructor
  · intro l hp
    have hl := keys_nodup_perm hp hkeys
    unfold SameRecord
    simp only [hslot, buildNode_put hkeys hid hnode, buildNode_put hl (hp.mem_iff.2 hid) hnode]
    rw [loadMembers_perm hkeys hp, ordersAlike_arg]
  · rintro done rest k v w rfl hk
    unfold OwnField
    simp only [hslot, buildNode_put hkeys hid hnode,
      buildNode_put (keys_nodup_replace hkeys) (mem_replace hid (Ne.symm hk)) hnode]
    rw [loadMembers_own hkeys, keyApart_arg]

/-- A range with its type before its value, and a required child. -/
def flagMembers : List (String × Json) :=
  [("id", .int 0), ("value_type", .int 1), ("value", .arr [.int 1, .int 8, .int 1]),
   ("must_have", .bool true), ("must_child", .bool true), ("child_id", .arr [.int 1])]

/-- The other half first, which keeps the type before the value; and the object without
children. -/
theorem flag_byKey :
    SameRecord plainJsonC (some "-g") [plainNode ""] flagMembers
      (flagMembers.drop 3 ++ flagMembers.take 3) ∧
    OwnField plainJsonC (some "-g") [plainNode ""] flagMembers.dropLast [] "child_id"
      (.arr [.int 1]) .null := by
  obtain ⟨horder, hown⟩ := buildNode_byKey plainJsonC (some "-g") flagMembers (by decide) (.int 0)
    List.mem_cons_self [plainNode ""] (plainNode "") rfl
  have htyped : Typed plainJsonC 0 flagMembers := by
    simp [Typed, flagMembers, Field.IsIds, Field.key, IsList]
  have hperm : (flagMembers.drop 3 ++ flagMembers.take 3).Perm flagMembers :=
    List.perm_append_comm.trans (.of_eq (List.take_append_drop 3 flagMembers))
  refine ⟨(horder _ hperm).2 ⟨⟨htyped, ?_⟩, fun v _ _ => .inl (.refl 1), fun hnull => ?_⟩,
    (hown flagMembers.dropLast [] "child_id" (.arr [.int 1]) .null rfl (by decide)).2
      ⟨⟨htyped, ?_⟩, fun hk => absurd hk (by decide)⟩⟩
  · simp [Typed, flagMembers, Field.IsIds, Field.key, IsList]
  · simp [flagMembers, Field.key] at hnull
  · simp [Typed, flagMembers, Field.IsIds, Field.key, IsList]

/-- A null `must_child` after a true `must_have` resets it; before it, it does not. -/
theorem mustChild_not_byKey : ¬ SameRecord plainJsonC none [plainNode ""]
    [("id", .int 0), ("must_have", .bool true), ("must_child", .null)]
    [("id", .int 0), ("must_child", .null), ("must_have", .bool true)] := by
  rintro ⟨a, h, h'⟩
  have hhave := congrArg (fun r => r.toOption.map (·.map (·.mustHave))) (h.trans h'.symm)
  revert hhave
  decide

end ConFuzz
